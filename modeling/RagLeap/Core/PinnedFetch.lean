import RagLeap.Core.PageFetch
import RagLeap.Voice.Fetch

/-!
# Where a page fetch connects

The checks of `core/page_fetch.py` that `fetchPage` calls, down to reads of the environment, name
resolution and connections. The allow-list is read anew each time, and every answer of the
resolver, of the network and of the server is arbitrary, also from one hop to the next.

`pinned` is the order the statements keep to: a connection goes to the first address of the
resolution right before it, which was for a name on the allow-list and gave public addresses only.
`fetchPage_public` says so of every run, with the number of connections.
-/

namespace RagLeap.PageFetch

def MAX_URL_CHARS : ℕ := 300

/-- `urlsplit` of a page's URL. -/
structure PageUrl extends Voice.SplitResult where
  path : Str
  query : Str

/-- What the code uses of `urllib.parse` and `ipaddress`, where `none` is a `ValueError`, and of
`str.lower`. -/
structure Lib where
  urlsplit : Str → Option PageUrl
  lower : Str → Str
  Address : Type
  ipAddress : Str → Option Address
  ipv4Mapped : Address → Option Address
  isGlobal : Address → Bool
  isMulticast : Address → Bool

/-! ## The allow-list -/

/-- `s.rstrip(".")`. -/
def rstripDots (s : Str) : Str := (s.reverse.dropWhile (· = '.')).reverse

/-- `[a-z0-9-]`. -/
def isLabelChar (c : Char) : Bool := c.isLower || c.isDigit || c = '-'

/-- `(\*\.)?[a-z0-9-]+(\.[a-z0-9-]+)+`. -/
def isDomain (item : Str) : Bool :=
  let labels := (if "*.".toList <+: item then item.drop 2 else item).splitOn '.'
  2 ≤ labels.length && labels.all fun l => l ≠ [] && l.all isLabelChar

variable (lib : Lib)

/-- `allowed_domains`, of the value of `BROWSER_ALLOWED_DOMAINS`. -/
def allowedDomains (raw : Str) : List Str :=
  (raw.splitOn ',').foldl (fun out item =>
    let item := rstripDots (lib.lower (Str.strip item))
    if item ≠ [] ∧ isDomain item ∧ item ∉ out then out ++ [item] else out) []

def hostAllowed (raw host : Str) : Bool :=
  let host := rstripDots (lib.lower host)
  (allowedDomains lib raw).any fun pat =>
    if "*.".toList <+: pat then pat.drop 1 <:+ host else host = pat

/-! ## The statements -/

inductive NetOp
  /-- Reads `BROWSER_FETCH_ENABLED`. -/
  | fetchEnabled
  /-- Reads `BROWSER_ALLOWED_DOMAINS`. -/
  | allowedDomains
  /-- The addresses as the resolver writes them, or `none` if it raises. -/
  | getaddrinfo (host : Str)
  /-- A connection to port 443 of the address. -/
  | connect (ip : Str)
  /-- The handshake for `host` and one request over the connection. -/
  | exchange (host path : Str)

abbrev Network : Signature where
  Op := NetOp
  Res
    | .fetchEnabled | .allowedDomains => Str
    | .getaddrinfo _ => Option (List Str)
    | .connect _ => Bool
    | .exchange .. => Reply Response

def enabled : Prog Network Bool :=
  .op .fetchEnabled fun flag =>
    if lib.lower (Str.strip flag) = "true".toList then
      .op .allowedDomains fun raw => .ret (allowedDomains lib raw ≠ [])
    else .ret false

/-- `_is_ip`. -/
def isIp (host : Str) : Bool := (lib.ipAddress host).isSome

/-- `validate_url`. -/
def validateUrl (url : Str) : Prog Network (Reply (Str × Str)) :=
  let url := Str.strip url
  if url = [] ∨ url.length > MAX_URL_CHARS then .ret (.refused .length)
  else if url.any fun c => Str.isSpace c || c.toNat < 32 || c.toNat = 127 then
    .ret (.refused .chars)
  else
    match lib.urlsplit url with
    | none => .ret .raised
    | some p =>
      if p.scheme ≠ "https".toList then .ret (.refused .scheme)
      else if p.username.getD [] ≠ [] ∨ p.password.getD [] ≠ [] ∨ '@' ∈ p.netloc then
        .ret (.refused .creds)
      else
        match p.port with
        | none => .ret (.refused .port)
        | some port =>
          if port ≠ none ∧ port ≠ some 443 then .ret (.refused .port)
          else
            let host := rstripDots (lib.lower (p.hostname.getD []))
            if host = [] ∨ ¬ IsAscii host then .ret (.refused .host)
            else if isIp lib host then .ret (.refused .ip)
            else
              .op .allowedDomains fun raw =>
                if ¬ hostAllowed lib raw host then .ret (.refused .allowlist)
                else
                  let path := if p.path = [] then "/".toList else p.path
                  .ret (.ok (host, if p.query = [] then path else path ++ '?' :: p.query))

/-- `info[4][0].split("%")[0]`. -/
def unscoped (address : Str) : Str := address.takeWhile (· ≠ '%')

/-- Whether an address passes the check of `resolve_public`, `none` if it is none. -/
def publicAddress (ip : Str) : Option Bool :=
  (lib.ipAddress ip).map fun a =>
    let a := (lib.ipv4Mapped a).getD a
    lib.isGlobal a && !lib.isMulticast a

/-- The loop of `resolve_public`, with the addresses found so far. -/
def publicIps : List Str → List Str → Reply (List Str)
  | ips, [] => .ok ips
  | ips, info :: infos =>
    match publicAddress lib (unscoped info) with
    | none => .raised
    | some false => .refused .nonPublic
    | some true => publicIps (ips ++ [unscoped info]) infos

def resolvePublic (host : Str) : Prog Network (Reply Str) :=
  .op (.getaddrinfo host) fun
    | none => .ret .raised
    | some infos =>
      match publicIps lib [] infos with
      | .ok [] => .ret (.refused .noResolve)
      | .ok (ip :: _) => .ret (.ok ip)
      | .refused why => .ret (.refused why)
      | .raised => .ret .raised

/-- `_request`. -/
def request (host ip path : Str) : Prog Network (Reply Response) :=
  .op (.connect ip) fun up =>
    if up then .op (.exchange host path) .ret else .ret .raised

/-- The statements of `fetch_page`, carried out. -/
def carryOut : (o : Op) → Prog Network (Statements.Res o)
  | .enabled => enabled lib
  | .validateUrl url => validateUrl lib url
  | .resolvePublic host => resolvePublic lib host
  | .request host ip path => request host ip path

variable (urljoin : Str → Str → Str) (htmlToText : Str → Str)

/-- `fetch_page` over the network. -/
def fetchPageNet (url : Str) : Prog Network Result :=
  (fetchPage urljoin htmlToText url).interp (carryOut lib)

/-! ## The order of the statements -/

/-- The statement reads the addresses of a name on the allow-list, all of them public. -/
def Resolved (raw host : Str) (addresses : List Str) (ip : Str) : Prop :=
  hostAllowed lib raw host ∧ (∀ a ∈ addresses, publicAddress lib (unscoped a) = some true) ∧
    addresses.head?.map unscoped = some ip

/-- What was done last. -/
inductive Stage
  | idle
  | listed (raw : Str)
  | resolved (raw host : Str) (addresses : List Str)
  | connected (raw host : Str) (addresses : List Str) (ip : Str)

/-- The order of the statements, with the connections that are left. -/
def pinned : Protocol Network where
  Phase := ℕ × Stage
  permits
    | _, .fetchEnabled => True
    | _, .allowedDomains => True
    | (_, .listed raw), .getaddrinfo host => hostAllowed lib raw host
    | (n, .resolved raw host addresses), .connect ip => 0 < n ∧ Resolved lib raw host addresses ip
    | (_, .connected _ host _ _), .exchange host' _ => host' = host
    | _, _ => False
  next
    | (n, _), .allowedDomains, raw => some (n, .listed raw)
    | (n, .listed raw), .getaddrinfo host, some addresses =>
      some (n, .resolved raw host addresses)
    | (n, .resolved raw host addresses), .connect ip, true =>
      some (n - 1, .connected raw host addresses ip)
    | (n, _), .connect _, _ => some (n - 1, .idle)
    | (n, _), _, _ => some (n, .idle)

variable {lib}

theorem enabled_follows (n : ℕ) (s : Stage) :
    (enabled lib).Follows (pinned lib) (fun φ _ => φ.1 = n) (n, s) := by
  refine ⟨trivial, fun flag φ hφ => ?_⟩
  cases hφ
  dsimp only
  split
  · refine ⟨trivial, fun raw φ hφ => ?_⟩
    cases hφ
    exact rfl
  · exact rfl

variable (lib) in
/-- What holds of a validated URL: its host is on the allow-list that was read last. -/
def Validated (n : ℕ) (φ : ℕ × Stage) (r : Reply (Str × Str)) : Prop :=
  ∀ host path, r = .ok (host, path) → ∃ raw, φ = (n, .listed raw) ∧ hostAllowed lib raw host

/-- A check that ends the validation, or lets it go on. -/
theorem follows_unless {n : ℕ} {φ : ℕ × Stage} {c : Prop} [Decidable c] {why : Refusal}
    {p : Prog Network (Reply (Str × Str))}
    (hp : p.Follows (pinned lib) (Validated lib n) φ) :
    (if c then .ret (.refused why) else p).Follows (pinned lib) (Validated lib n) φ := by
  split
  · rintro _ _ ⟨⟩
  · exact hp

theorem validateUrl_follows (n : ℕ) (s : Stage) (url : Str) :
    (validateUrl lib url).Follows (pinned lib) (Validated lib n) (n, s) := by
  unfold validateUrl
  refine follows_unless (follows_unless ?_)
  cases lib.urlsplit (Str.strip url) with
  | none => rintro _ _ ⟨⟩
  | some p =>
    refine follows_unless (follows_unless ?_)
    cases p.port with
    | none => rintro _ _ ⟨⟩
    | some port =>
      refine follows_unless (follows_unless (follows_unless ⟨trivial, fun raw φ hφ => ?_⟩))
      cases hφ
      dsimp only
      split
      · rintro _ _ ⟨⟩
      · rename_i hallowed
        rintro host path ⟨⟩
        exact ⟨raw, rfl, by simpa using hallowed⟩

theorem publicIps_ok {ips infos found : List Str} (h : publicIps lib ips infos = .ok found) :
    found = ips ++ infos.map unscoped ∧
      ∀ a ∈ infos, publicAddress lib (unscoped a) = some true := by
  induction infos generalizing ips with
  | nil =>
    cases h
    simp
  | cons info infos ih =>
    unfold publicIps at h
    split at h
    · cases h
    · cases h
    · rename_i hpublic
      obtain ⟨hfound, hall⟩ := ih h
      refine ⟨by simpa using hfound, fun a ha => ?_⟩
      rcases List.mem_cons.1 ha with rfl | ha
      · exact hpublic
      · exact hall a ha

/-- The address to pin is the first of the resolution, and all of them are public. -/
theorem resolvePublic_follows (n : ℕ) {raw host : Str} (h : hostAllowed lib raw host) :
    (resolvePublic lib host).Follows (pinned lib) (fun φ r => ∀ ip, r = .ok ip →
      ∃ addresses, φ = (n, .resolved raw host addresses) ∧ Resolved lib raw host addresses ip)
      (n, .listed raw) := by
  refine ⟨h, fun r φ hφ => ?_⟩
  cases r with
  | none => rintro _ ⟨⟩
  | some infos =>
    cases hφ
    dsimp only
    split
    · rintro _ ⟨⟩
    · rename_i ip ips hips
      rintro _ ⟨⟩
      obtain ⟨hfound, hall⟩ := publicIps_ok hips
      refine ⟨infos, rfl, h, hall, ?_⟩
      rw [← List.head?_map, show infos.map unscoped = ip :: ips by simpa using hfound.symm]
      rfl
    · rintro _ ⟨⟩
    · rintro _ ⟨⟩

theorem request_follows {n : ℕ} {raw host ip : Str} {addresses : List Str} (path : Str)
    (h : Resolved lib raw host addresses ip) :
    (request host ip path).Follows (pinned lib) (fun φ _ => φ.1 = n)
      (n + 1, .resolved raw host addresses) := by
  refine ⟨⟨Nat.succ_pos n, h⟩, fun up φ hφ => ?_⟩
  cases up with
  | false =>
    cases hφ
    exact rfl
  | true =>
    cases hφ
    refine ⟨rfl, fun r φ hφ => ?_⟩
    cases hφ
    exact rfl

/-- **Each hop of the redirect loop uses up one connection at most, to where it was resolved.** -/
theorem follow_pinned (hops : ℕ) (url : Str) (s : Stage) :
    ((follow urljoin htmlToText hops url).interp (carryOut lib)).Follows (pinned lib)
      (fun _ _ => True) (hops, s) := by
  induction hops generalizing url s with
  | zero => trivial
  | succ hops ih =>
    refine (validateUrl_follows (hops + 1) s url).bind fun φ r hvalid => ?_
    cases r with
    | refused why => trivial
    | raised => trivial
    | ok target =>
      obtain ⟨host, path⟩ := target
      obtain ⟨raw, rfl, hallowed⟩ := hvalid host path rfl
      refine (resolvePublic_follows (hops + 1) hallowed).bind fun φ r hpublic => ?_
      cases r with
      | refused why => trivial
      | raised => trivial
      | ok ip =>
        obtain ⟨addresses, rfl, hresolved⟩ := hpublic ip rfl
        refine (request_follows path hresolved).bind fun φ r hleft => ?_
        obtain ⟨n, s'⟩ := φ
        obtain rfl : n = hops := hleft
        cases r with
        | refused why => trivial
        | raised => trivial
        | ok resp =>
          simp only [Reply.andThen]
          split_ifs
          · trivial
          · exact ih _ s'
          · trivial
          · trivial
          · trivial
          · trivial

theorem fetchPageNet_pinned (url : Str) :
    (fetchPageNet lib urljoin htmlToText url).Follows (pinned lib) (fun _ _ => True)
      (MAX_REDIRECTS + 1, .idle) := by
  refine (enabled_follows (MAX_REDIRECTS + 1) .idle).bind fun φ on hleft => ?_
  obtain ⟨n, s⟩ := φ
  obtain rfl : n = MAX_REDIRECTS + 1 := hleft
  cases on with
  | false => trivial
  | true => exact follow_pinned urljoin htmlToText (MAX_REDIRECTS + 1) (Str.strip url) s

/-! ## The connections of a run -/

def isConnect : Prog.Event Network → Bool
  | ⟨.connect _, _⟩ => true
  | _ => false

/-- The connections opened, or tried. -/
def connections (es : List (Prog.Event Network)) : ℕ := es.countP isConnect

variable (lib)

/-- The statements before end with the hop's read of the allow-list and its resolution. -/
def AfterResolution (pre : List (Prog.Event Network)) (host ip : Str) : Prop :=
  ∃ es raw addresses, pre = es ++ [⟨.allowedDomains, raw⟩, ⟨.getaddrinfo host, some addresses⟩] ∧
    Resolved lib raw host addresses ip

/-- A connection goes where the hop was resolved to, and an exchange over it is with the host of
that resolution. -/
def Pinned (pre : List (Prog.Event Network)) : Prog.Event Network → Prop
  | ⟨.connect ip, _⟩ => ∃ host, AfterResolution lib pre host ip
  | ⟨.exchange host _, _⟩ =>
    ∃ es ip, pre = es ++ [⟨.connect ip, true⟩] ∧ AfterResolution lib es host ip
  | _ => True

/-- What a stage says of the statements before it. -/
def Describes (pre : List (Prog.Event Network)) : Stage → Prop
  | .idle => True
  | .listed raw => ∃ es, pre = es ++ [⟨.allowedDomains, raw⟩]
  | .resolved raw host addresses =>
    ∃ es, pre = es ++ [⟨.allowedDomains, raw⟩, ⟨.getaddrinfo host, some addresses⟩]
  | .connected _ host _ ip =>
    ∃ es, pre = es ++ [⟨.connect ip, true⟩] ∧ AfterResolution lib es host ip

/-- One permitted statement. -/
theorem describes_step (pre : List (Prog.Event Network)) (φ : ℕ × Stage) (o : NetOp)
    (r : Network.Res o)
    (h : Describes lib pre φ.2 ∧ connections pre + φ.1 ≤ MAX_REDIRECTS + 1)
    (hpermits : (pinned lib).permits φ o) :
    ∃ φ', (pinned lib).next φ o r = some φ' ∧ Pinned lib pre ⟨o, r⟩ ∧
      Describes lib (pre ++ [⟨o, r⟩]) φ'.2 ∧
        connections (pre ++ [⟨o, r⟩]) + φ'.1 ≤ MAX_REDIRECTS + 1 := by
  obtain ⟨n, s⟩ := φ
  obtain ⟨hs, hn⟩ := h
  have hother : ∀ e, isConnect e = false → connections (pre ++ [e]) = connections pre := by
    intro e he
    simp [connections, he]
  have hmore : ∀ e, isConnect e = true → connections (pre ++ [e]) = connections pre + 1 := by
    intro e he
    simp [connections, he]
  cases o with
  | fetchEnabled =>
    refine ⟨(n, .idle), rfl, trivial, trivial, ?_⟩
    rw [hother _ rfl]
    exact hn
  | allowedDomains =>
    refine ⟨(n, .listed r), rfl, trivial, ⟨pre, rfl⟩, ?_⟩
    rw [hother _ rfl]
    exact hn
  | getaddrinfo host =>
    cases s with
    | listed raw =>
      cases r with
      | none =>
        refine ⟨(n, .idle), rfl, trivial, trivial, ?_⟩
        rw [hother _ rfl]
        exact hn
      | some addresses =>
        obtain ⟨es, rfl⟩ := hs
        refine ⟨(n, .resolved raw host addresses), rfl, trivial, ⟨es, by simp⟩, ?_⟩
        rw [hother _ rfl]
        exact hn
    | idle | resolved | connected => exact hpermits.elim
  | connect ip =>
    cases s with
    | resolved raw host addresses =>
      obtain ⟨hpos, hresolved⟩ := hpermits
      obtain ⟨es, hes⟩ := hs
      have hafter : AfterResolution lib pre host ip := ⟨es, raw, addresses, hes, hresolved⟩
      cases r with
      | false =>
        refine ⟨(n - 1, .idle), rfl, ⟨host, hafter⟩, trivial, ?_⟩
        rw [hmore _ rfl]
        dsimp only at hn ⊢
        omega
      | true =>
        refine ⟨(n - 1, .connected raw host addresses ip), rfl, ⟨host, hafter⟩,
          ⟨pre, rfl, hafter⟩, ?_⟩
        rw [hmore _ rfl]
        dsimp only at hn ⊢
        omega
    | idle | listed | connected => exact hpermits.elim
  | exchange host path =>
    cases s with
    | connected raw host' addresses ip =>
      obtain rfl : host = host' := hpermits
      obtain ⟨es, hes, hafter⟩ := hs
      refine ⟨(n, .idle), rfl, ⟨es, ip, hes, hafter⟩, trivial, ?_⟩
      rw [hother _ rfl]
      exact hn
    | idle | listed | resolved => exact hpermits.elim

/-- **Whatever the servers and the resolver answer: each connection of a run goes to the first
address of the resolution right before it, which was for a host on the allow-list as read right
before and gave public addresses only; what is sent over it is for that host; and there are no
more connections than the first and the redirects allowed.** -/
theorem fetchPage_public (urljoin : Str → Str → Str) (htmlToText : Str → Str) {url : Str}
    {es : List (Prog.Event Network)} {q : Prog Network Result}
    (ht : Prog.Trace (fetchPageNet lib urljoin htmlToText url) es q) :
    (∀ es₁ ip up es₂, es = es₁ ++ ⟨.connect ip, up⟩ :: es₂ →
        ∃ host, AfterResolution lib es₁ host ip) ∧
      (∀ es₁ host path r es₂, es = es₁ ++ ⟨.exchange host path, r⟩ :: es₂ →
        ∃ es₀ ip, es₁ = es₀ ++ [⟨.connect ip, true⟩] ∧ AfterResolution lib es₀ host ip) ∧
      connections es ≤ MAX_REDIRECTS + 1 := by
  have hstart : Describes lib [] Stage.idle ∧
      connections [] + (MAX_REDIRECTS + 1) ≤ MAX_REDIRECTS + 1 := ⟨trivial, le_of_eq rfl⟩
  obtain ⟨⟨φ, -, hcount⟩, hall⟩ := Prog.Follows.history (P := pinned lib)
    (I := fun pre φ => Describes lib pre φ.2 ∧ connections pre + φ.1 ≤ MAX_REDIRECTS + 1)
    (G := Pinned lib) (describes_step lib) ht (fetchPageNet_pinned urljoin htmlToText url)
    (φ := (MAX_REDIRECTS + 1, .idle)) hstart
  refine ⟨fun es₁ ip up es₂ he => hall es₁ _ es₂ he, fun es₁ host path r es₂ he =>
    hall es₁ _ es₂ he, ?_⟩
  rw [List.nil_append] at hcount
  omega

/-! ## A redirect between two allowed hosts -/

namespace Sample

/-- A library that knows the texts of the run below. -/
def twoHosts : Lib where
  urlsplit url :=
    if url = "https://docs.example.com/".toList then
      some ⟨⟨"https".toList, "docs.example.com".toList, none, none,
        some "docs.example.com".toList, some none⟩, "/".toList, []⟩
    else if url = "https://www.example.com/new".toList then
      some ⟨⟨"https".toList, "www.example.com".toList, none, none,
        some "www.example.com".toList, some none⟩, "/new".toList, []⟩
    else none
  lower s := s.map Char.toLower
  Address := Str
  ipAddress s := if s ∈ ["93.184.216.34".toList, "10.0.0.1".toList] then some s else none
  ipv4Mapped _ := none
  isGlobal s := s = "93.184.216.34".toList
  isMulticast _ := false

def answers (addresses : List Str) : (o : NetOp) → Network.Res o
  | .fetchEnabled => "true".toList
  | .allowedDomains => "docs.example.com,*.example.com".toList
  | .getaddrinfo _ => some addresses
  | .connect _ => true
  | .exchange _ path => .ok (if path = "/".toList then ⟨302, "new".toList, [], []⟩
      else ⟨200, [], "text/plain".toList, "ok".toList⟩)

def program : Prog Network Result :=
  fetchPageNet twoHosts (fun _ _ => "https://www.example.com/new".toList) id
    "https://docs.example.com/".toList

/-- The first host resolves to a public address, the second to an internal one. -/
def run : List (Prog.Event Network) :=
  program.play (List.replicate 6 (answers ["93.184.216.34".toList]) ++
    List.replicate 6 (answers ["10.0.0.1".toList]))

/-- The redirect is followed up to the resolution of its host: one connection in all. -/
theorem run_public : run.length = 8 ∧ connections run ≤ MAX_REDIRECTS + 1 ∧
    ∃ host, AfterResolution twoHosts (run.take 4) host "93.184.216.34".toList := by
  obtain ⟨q, ht⟩ := Prog.exists_trace_play program (List.replicate 6
    (answers ["93.184.216.34".toList]) ++ List.replicate 6 (answers ["10.0.0.1".toList]))
  have h := fetchPage_public twoHosts (fun _ _ => "https://www.example.com/new".toList) id ht
  refine ⟨by decide, h.2.2, h.1 _ _ true (run.drop 5) ?_⟩
  rfl

end Sample

end RagLeap.PageFetch
