import RagLeap.Foundations.Text
import RagLeap.Foundations.Prog

/-!
# Opening a model hub's URL

`check_url` and `open_url` of `fetch.py`: redirects are followed by hand, each hop is checked, and
the permission to send the token is carried from hop to hop. The answers to the requests, and what
`urllib.parse` makes of a URL, are arbitrary.

`openUrl_follows` says which requests may be sent in which order; `token_stays_with_hosts` is what
this means for the requests of a run.
-/

namespace RagLeap.Voice

/-- `urllib.parse.urlsplit` of a URL; `port` is `none` where reading it raises. -/
structure SplitResult where
  scheme : Str
  netloc : Str
  username : Option Str
  password : Option Str
  hostname : Option Str
  port : Option (Option ℕ)

/-- What the code uses of `urllib.parse`, where `none` is a `ValueError`, and `str.lower`. -/
structure UrlParse where
  urlsplit : Str → Option SplitResult
  urljoin : Str → Str → Option Str
  lower : Str → Str

structure Policy where
  allowedSuffixes : List Str := ["huggingface.co".toList, "hf.co".toList]
  tokenHosts : List Str := ["huggingface.co".toList]
  requireHttps : Bool := true
  maxRedirects : ℤ := 5

def REDIRECTS : List ℕ := [301, 302, 303, 307, 308]

/-- The host and the suffix tests of `check_url`. -/
def Policy.allows (policy : Policy) (host : Str) : Bool :=
  policy.allowedSuffixes.any fun s => host = s || ('.' :: s).isSuffixOf host

namespace UrlParse

variable (lib : UrlParse)

/-- `(p.hostname or "").lower()`. -/
def host (p : SplitResult) : Str := lib.lower (p.hostname.getD [])

/-- `check_url`, with the text of the `FetchError` it raises. -/
def checkUrl (url : Str) (policy : Policy) : Except Str Str :=
  match lib.urlsplit url with
  | none => .error "malformed URL".toList
  | some p =>
    let host := lib.host p
    let shown := if host = [] then "?".toList else host
    match p.port with
    | none => .error "malformed URL".toList
    | some port =>
      if p.username ≠ none ∨ p.password ≠ none ∨ '@' ∈ p.netloc then
        .error "refusing a URL that contains credentials".toList
      else if policy.requireHttps ∧ p.scheme ≠ "https".toList then
        .error ("refusing non-HTTPS URL to host ".toList ++ shown)
      else if policy.requireHttps ∧ port ≠ none ∧ port ≠ some 443 then
        .error ("refusing non-standard port for host ".toList ++ shown)
      else if ¬ policy.requireHttps ∧ p.scheme ≠ "http".toList ∧ p.scheme ≠ "https".toList then
        .error "refusing URL with unsupported scheme".toList
      else if ¬ policy.allows host then .error ("host not allowed: ".toList ++ shown)
      else .ok host

end UrlParse

/-! ## The requests -/

/-- `urllib.request.Request`. -/
structure Request where
  url : Str
  headers : List (Str × Str)

/-- What `opener.open` comes to; `raised` is an exception that is not caught. -/
inductive Reply
  | response
  | httpError (code : ℕ) (location : Option Str)
  | urlError (reason : Str)
  | otherError (name : Str)
  | raised

/-- What `open_url` comes to. -/
inductive Opened
  | response
  | fetchError (message : Str)
  | raised

abbrev Requests : Signature where
  Op := Request
  Res _ := Reply

/-- The message for a status that is no redirect. -/
def statusMessage (code : ℕ) (host : Str) : Str :=
  if code = 401 ∨ code = 403 then
    "access denied by ".toList ++ host ++ " (HTTP ".toList ++ Str.ofNat code ++
      "): the repository may be gated; accept its conditions on the website and set HF_TOKEN".toList
  else if code = 404 then "not found at ".toList ++ host ++ " (HTTP 404)".toList
  else "HTTP ".toList ++ Str.ofNat code ++ " from ".toList ++ host

/-- The headers of a hop; the token goes to a token host while it is allowed. -/
def headers (token : Str) (send : Bool) : List (Str × Str) :=
  ("User-Agent".toList, "ragleap-voice/0.0.2".toList) ::
    if send then [("Authorization".toList, "Bearer ".toList ++ token)] else []

variable (lib : UrlParse) (policy : Policy)

/-- The loop of `open_url`, with the hops left. -/
def hop (token : Str) : ℕ → Str → Bool → Prog Requests Opened
  | 0, _, _ => .ret (.fetchError "too many redirects".toList)
  | hops + 1, current, tokenAllowed =>
    match lib.checkUrl current policy with
    | .error message => .ret (.fetchError message)
    | .ok host =>
      let send := tokenAllowed && decide (host ∈ policy.tokenHosts)
      .op ⟨current, headers token send⟩ fun
        | .response => .ret .response
        | .httpError code location =>
          if code ∈ REDIRECTS then
            if location.getD [] = [] then
              .ret (.fetchError ("redirect without a Location header from ".toList ++ host))
            else
              match lib.urljoin current (location.getD []) with
              | none => .ret .raised
              | some next => hop token hops next send
          else .ret (.fetchError (statusMessage code host))
        | .urlError reason =>
          .ret (.fetchError ("network error contacting ".toList ++ host ++ ": ".toList ++
            reason.take 100))
        | .otherError name =>
          .ret (.fetchError ("network error contacting ".toList ++ host ++ ": ".toList ++ name))
        | .raised => .ret .raised

/-- `open_url`. -/
def openUrl (url : Str) (token : Option Str) : Prog Requests Opened :=
  hop lib policy (token.getD []) (policy.maxRedirects + 1).toNat url (token.getD [] ≠ [])

/-! ## Where the token goes -/

/-- The request carries the token. -/
def Request.CarriesToken (req : Request) : Prop := "Authorization".toList ∈ req.headers.map Prod.fst

/-- The URL is read as an HTTPS URL of an allowed host. -/
def Allowed (url : Str) : Prop :=
  ∃ p, lib.urlsplit url = some p ∧ p.scheme = "https".toList ∧ policy.allows (lib.host p) = true

/-- The URL is read as one of a token host. -/
def AtTokenHost (url : Str) : Prop :=
  ∃ p, lib.urlsplit url = some p ∧ lib.host p ∈ policy.tokenHosts

/-- Typestate of an opening: how many requests are left, and whether all earlier ones went to token
hosts. -/
def guarded : Protocol Requests where
  Phase := ℕ × Prop
  permits φ req := 0 < φ.1 ∧ Allowed lib policy req.url ∧
    (req.CarriesToken → φ.2 ∧ AtTokenHost lib policy req.url)
  next φ req _ := some (φ.1 - 1, φ.2 ∧ AtTokenHost lib policy req.url)

variable {lib policy}

/-- A URL that passes the checks is split into parts of which one is the host returned. -/
theorem UrlParse.of_checkUrl {url host : Str} (h : lib.checkUrl url policy = .ok host) :
    ∃ p, lib.urlsplit url = some p ∧ lib.host p = host ∧ policy.allows host = true ∧
      (policy.requireHttps = true → p.scheme = "https".toList) := by
  unfold UrlParse.checkUrl at h
  split at h
  · cases h
  · rename_i p hsplit
    simp only at h
    split at h
    · cases h
    · split_ifs at h with hcreds hscheme hport hother hallowed
      injection h with hhost
      subst hhost
      refine ⟨p, hsplit, rfl, by simpa using hallowed, fun hhttps => ?_⟩
      by_contra hne
      exact hscheme ⟨hhttps, hne⟩

theorem carriesToken_iff {url token : Str} {send : Bool} :
    Request.CarriesToken ⟨url, headers token send⟩ ↔ send = true := by
  cases send with
  | false => simp [Request.CarriesToken, headers]
  | true => simp [Request.CarriesToken, headers]

/-- The loop keeps to the guarded order, if the token is allowed only where all earlier hosts are
token hosts. -/
theorem hop_follows (hhttps : policy.requireHttps = true) (token : Str) (hops : ℕ) (url : Str)
    (tokenAllowed : Bool) (stayed : Prop) (h : tokenAllowed = true → stayed) :
    (hop lib policy token hops url tokenAllowed).Follows (guarded lib policy)
      (fun _ _ => True) (hops, stayed) := by
  induction hops generalizing url tokenAllowed stayed with
  | zero => trivial
  | succ hops ih =>
    unfold hop
    split
    · trivial
    · rename_i host hcheck
      obtain ⟨p, hsplit, hhost, hallows, hscheme⟩ := UrlParse.of_checkUrl hcheck
      refine ⟨⟨Nat.succ_pos _, ⟨p, hsplit, hscheme hhttps, hhost ▸ hallows⟩, ?_⟩, ?_⟩
      · intro hcarries
        have hsend := carriesToken_iff.1 hcarries
        rw [Bool.and_eq_true, decide_eq_true_iff] at hsend
        exact ⟨h hsend.1, p, hsplit, hhost ▸ hsend.2⟩
      · rintro r φ' hφ'
        cases hφ'
        -- only a redirect with a location goes on
        cases r with
        | response => trivial
        | urlError reason => trivial
        | otherError name => trivial
        | raised => trivial
        | httpError code location =>
          dsimp only
          split
          · split
            · trivial
            · split
              · trivial
              · apply ih
                intro hsend
                rw [Bool.and_eq_true, decide_eq_true_iff] at hsend
                exact ⟨h hsend.1, p, hsplit, hhost ▸ hsend.2⟩
          · trivial

theorem openUrl_follows (hhttps : policy.requireHttps = true) (url : Str) (token : Option Str) :
    (openUrl lib policy url token).Follows (guarded lib policy) (fun _ _ => True)
      ((policy.maxRedirects + 1).toNat, True) :=
  hop_follows hhttps _ _ _ _ _ fun _ => trivial

variable (lib policy) in
/-- The phase after some requests. -/
theorem after_guarded (es : List (Prog.Event Requests)) (n : ℕ) (stayed : Prop) :
    ∃ stayed', (guarded lib policy).after (n, stayed) es = some (n - es.length, stayed') ∧
      (stayed' ↔ stayed ∧ ∀ e ∈ es, AtTokenHost lib policy e.1.url) := by
  induction es generalizing n stayed with
  | nil => exact ⟨stayed, rfl, by simp⟩
  | cons e es ih =>
    obtain ⟨stayed', hafter, hiff⟩ := ih (n - 1) (stayed ∧ AtTokenHost lib policy e.1.url)
    refine ⟨stayed', ?_, ?_⟩
    · have hlength : n - 1 - es.length = n - (e :: es).length := by
        rw [List.length_cons]
        omega
      exact hlength ▸ (Protocol.after_cons (P := guarded lib policy) rfl).trans hafter
    · rw [hiff, List.forall_mem_cons, and_assoc]

/-- Under a policy that requires HTTPS there are at most `max_redirects + 1` requests, each to an
allowed host over HTTPS; one that carries the token goes to a token host, as all before it do. -/
theorem token_stays_with_hosts (hhttps : policy.requireHttps = true) {url : Str}
    {token : Option Str} {es : List (Prog.Event Requests)} {q : Prog Requests Opened}
    (ht : Prog.Trace (openUrl lib policy url token) es q) :
    es.length ≤ (policy.maxRedirects + 1).toNat ∧
      ∀ es₁ req r es₂, es = es₁ ++ ⟨req, r⟩ :: es₂ → Allowed lib policy req.url ∧
        (req.CarriesToken → AtTokenHost lib policy req.url ∧
          ∀ e ∈ es₁, AtTokenHost lib policy e.1.url) := by
  obtain ⟨stayed, hafter, -⟩ := after_guarded lib policy es
    (policy.maxRedirects + 1).toNat True
  obtain ⟨-, hpermits⟩ := (openUrl_follows hhttps url token).of_trace ht hafter
  have hphase : ∀ es₁ req r es₂, es = es₁ ++ ⟨req, r⟩ :: es₂ →
      es₁.length < (policy.maxRedirects + 1).toNat ∧ Allowed lib policy req.url ∧
        (req.CarriesToken → (∀ e ∈ es₁, AtTokenHost lib policy e.1.url) ∧
          AtTokenHost lib policy req.url) := by
    intro es₁ req r es₂ hes
    obtain ⟨φ, hφ, hlt, hallowed, hcarries⟩ := hpermits es₁ req r es₂ hes
    obtain ⟨stayed₁, hafter₁, hiff⟩ := after_guarded lib policy es₁
      (policy.maxRedirects + 1).toNat True
    rw [hafter₁] at hφ
    cases hφ
    refine ⟨by dsimp only at hlt; omega, hallowed, fun hc => ?_⟩
    obtain ⟨hstayed, hat⟩ := hcarries hc
    exact ⟨(hiff.1 hstayed).2, hat⟩
  refine ⟨?_, fun es₁ req r es₂ hes => ?_⟩
  · rcases List.eq_nil_or_concat es with rfl | ⟨es₁, e, rfl⟩
    · exact Nat.zero_le _
    · obtain ⟨hlt, -⟩ := hphase es₁ e.1 e.2 [] (by simp)
      rw [List.concat_eq_append, List.length_append, List.length_singleton]
      exact hlt
  · obtain ⟨-, hallowed, hcarries⟩ := hphase es₁ req r es₂ hes
    exact ⟨hallowed, fun hc => (hcarries hc).symm⟩

/-- `urllib.parse` on a page of the hub and a file of its CDN. -/
def sampleParse : UrlParse where
  urlsplit url :=
    if url = "https://huggingface.co/a".toList then
      some ⟨"https".toList, "huggingface.co".toList, none, none, some "huggingface.co".toList,
        some none⟩
    else if url = "https://cdn-lfs.hf.co/a".toList then
      some ⟨"https".toList, "cdn-lfs.hf.co".toList, none, none, some "cdn-lfs.hf.co".toList,
        some none⟩
    else none
  urljoin _ location := some location
  lower host := host

/-- The hub redirects to its CDN, which answers. -/
def sampleTrace : List (Prog.Event Requests) :=
  [⟨⟨"https://huggingface.co/a".toList, headers "hf_t".toList true⟩,
      .httpError 302 (some "https://cdn-lfs.hf.co/a".toList)⟩,
    ⟨⟨"https://cdn-lfs.hf.co/a".toList, headers "hf_t".toList false⟩, .response⟩]

theorem token_stays_with_hosts_redirect :
    sampleTrace.length ≤ 6 ∧ ∀ es₁ req r es₂, sampleTrace = es₁ ++ ⟨req, r⟩ :: es₂ →
      Allowed sampleParse {} req.url ∧ (req.CarriesToken →
        AtTokenHost sampleParse {} req.url ∧ ∀ e ∈ es₁, AtTokenHost sampleParse {} e.1.url) := by
  have htrace : Prog.Trace (openUrl sampleParse {} "https://huggingface.co/a".toList
      (some "hf_t".toList)) sampleTrace (.ret .response) :=
    .step _ (.step _ (.refl _))
  exact token_stays_with_hosts rfl htrace

end RagLeap.Voice
