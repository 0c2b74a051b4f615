import Mathlib
import RagLeap.Foundations.Text

/-!
# Whose failures are counted

`client_id` of `core/auth_throttle.py`: the address a request is counted under. Behind a trusted
proxy it is read from the `X-Forwarded-For` header, whose right end the proxies append and whose
left end is whatever the client sent. `clientId_congr` compares two requests that reach the same
proxies by the same way: what a client puts in front of the header does not change its address.
The addresses and networks of Python's `ipaddress` are a parameter.
-/

namespace RagLeap.AuthThrottle

/-- `ipaddress`: what it reads, compares and writes. -/
structure IpAddress where
  Address : Type
  decEq : DecidableEq Address
  /-- `ip_address(text)`, `none` for a `ValueError`. -/
  parse : Str → Option Address
  /-- `str(ip)`. -/
  print : Address → Str
  /-- `ip_network(text, strict=False)` as the addresses in it, `none` for a `ValueError`. -/
  network : Str → Option (Address → Bool)

/-- `[p.strip() for p in text.split(",") if p.strip()]`. -/
def fields (text : Str) : List Str := ((text.splitOn ',').map Str.strip).filter (· ≠ [])

theorem fields_append_comma (pre post : Str) :
    fields (pre ++ ',' :: post) = fields pre ++ fields post := by
  simp only [fields, List.splitOn_append_cons_self, List.map_append, List.filter_append]

section

variable (lib : IpAddress)

/-- Whether an entry of `TRUSTED_PROXIES` is for the address `ip`; one that is not well formed is
for none. -/
def covers (ip : lib.Address) (entry : Str) : Bool :=
  have := lib.decEq
  if '/' ∈ entry then
    match lib.network entry with
    | some member => member ip
    | none => false
  else lib.parse entry = some ip

def isTrusted (addr : Str) (entries : List Str) : Bool :=
  if addr = [] then false
  else if addr ∈ entries then true
  else
    match lib.parse addr with
    | none => false
    | some ip => entries.any (covers lib ip)

def normalize (addr : Str) : Str :=
  match lib.parse addr with
  | some ip => lib.print ip
  | none => addr.take 64

def MAX_HOPS : ℕ := 20

/-- `hops[-20:]`. -/
def lastHops (forwarded : Str) : List Str :=
  (fields forwarded).drop ((fields forwarded).length - MAX_HOPS)

/-- The walk over the hops, the nearest first: an address that is not trusted is the client's,
and a hop that is no address ends the walk. -/
def firstUntrusted (entries : List Str) : List Str → Option Str
  | [] => none
  | hop :: hops =>
    match lib.parse hop with
    | none => none
    | some ip =>
      if ¬ isTrusted lib (lib.print ip) entries then some (lib.print ip)
      else firstUntrusted entries hops

/-- `(peer or "").strip() or "unknown"`. -/
def peerName (peer : Option Str) : Str :=
  let peer := Str.strip (peer.getD [])
  if peer = [] then "unknown".toList else peer

/-- The address to count a request under; `trusted` is `TRUSTED_PROXIES`. -/
def clientId (trusted : Str) (peer forwarded : Option Str) : Str :=
  let peer := peerName peer
  let entries := fields trusted
  if entries = [] ∨ ¬ isTrusted lib peer entries then normalize lib peer
  else
    (firstUntrusted lib entries (lastHops (forwarded.getD [])).reverse).getD (normalize lib peer)

/-! ## The walk ends within the proxies' part -/

variable {lib} {entries : List Str}

/-- A hop at which the walk over the hops ends with an address. -/
def IsUntrusted (lib : IpAddress) (entries : List Str) (hop : Str) : Prop :=
  ∃ ip, lib.parse hop = some ip ∧ isTrusted lib (lib.print ip) entries = false

/-- Behind an address that is not trusted the walk reads nothing. -/
theorem firstUntrusted_append {near far : List Str}
    (h : ∃ hop ∈ near, IsUntrusted lib entries hop) :
    firstUntrusted lib entries (near ++ far) = firstUntrusted lib entries near := by
  induction near with
  | nil =>
    obtain ⟨hop, hmem, -⟩ := h
    exact absurd hmem List.not_mem_nil
  | cons first near ih =>
    simp only [List.cons_append, firstUntrusted]
    cases hp : lib.parse first with
    | none => rfl
    | some ip =>
      dsimp only
      cases ht : isTrusted lib (lib.print ip) entries with
      | false => rfl
      | true =>
        -- a trusted hop is not the untrusted one, which the walk meets further on
        obtain ⟨hop, hmem, hun⟩ := h
        refine ih ⟨hop, (List.mem_cons.1 hmem).resolve_left fun heq => ?_, hun⟩
        obtain ⟨ip', hip, hfalse⟩ := hun
        rw [heq, hp] at hip
        cases hip
        rw [ht] at hfalse
        cases hfalse

/-- The walk finds the text of an address that is not trusted. -/
theorem exists_of_firstUntrusted {hops : List Str} {id : Str}
    (h : firstUntrusted lib entries hops = some id) :
    ∃ hop ∈ hops, ∃ ip, lib.parse hop = some ip ∧ id = lib.print ip ∧
      isTrusted lib id entries = false := by
  induction hops with
  | nil => cases h
  | cons first hops ih =>
    simp only [firstUntrusted] at h
    cases hp : lib.parse first with
    | none =>
      rw [hp] at h
      cases h
    | some ip =>
      rw [hp] at h
      dsimp only at h
      split_ifs at h with ht
      · obtain ⟨hop, hmem, hfound⟩ := ih h
        exact ⟨hop, List.mem_cons_of_mem _ hmem, hfound⟩
      · obtain rfl : lib.print ip = id := Option.some.inj h
        exact ⟨first, List.mem_cons_self, ip, hp, rfl, by simpa using ht⟩

/-- The header as it arrives: what the proxies appended, behind whatever the client sent. -/
def Forwards (appended forwarded : Str) : Prop :=
  forwarded = appended ∨ ∃ sent, forwarded = sent ++ ',' :: appended

theorem fields_of_forwards {appended forwarded : Str} (h : Forwards appended forwarded) :
    ∃ sent, fields forwarded = sent ++ fields appended := by
  rcases h with rfl | ⟨sent, rfl⟩
  · exact ⟨[], rfl⟩
  · exact ⟨fields sent, fields_append_comma sent appended⟩

/-- The hops that are read end with those of the proxies. -/
theorem lastHops_of_forwards {appended forwarded : Str} (h : Forwards appended forwarded)
    (hlen : (fields appended).length ≤ MAX_HOPS) :
    ∃ sent, lastHops forwarded = sent ++ fields appended := by
  obtain ⟨sent, heq⟩ := fields_of_forwards h
  have hkeep : (fields forwarded).length - MAX_HOPS ≤ sent.length := by
    rw [heq, List.length_append]
    omega
  rw [lastHops]
  generalize (fields forwarded).length - MAX_HOPS = n at hkeep
  exact ⟨sent.drop n, by rw [heq, List.drop_append_of_le_length hkeep]⟩

/-- The address depends on the proxies' part alone. -/
theorem clientId_of_forwards (trusted : Str) (peer : Option Str) {appended forwarded : Str}
    (h : Forwards appended forwarded) (hlen : (fields appended).length ≤ MAX_HOPS)
    (hun : ∃ hop ∈ fields appended, IsUntrusted lib (fields trusted) hop) :
    clientId lib trusted peer (some forwarded) =
      clientId lib trusted peer (some appended) := by
  obtain ⟨sent, hsent⟩ := lastHops_of_forwards h hlen
  obtain ⟨sent', hsent'⟩ := lastHops_of_forwards (.inl rfl) hlen
  have hnear : ∃ hop ∈ (fields appended).reverse, IsUntrusted lib (fields trusted) hop := by
    obtain ⟨hop, hmem, hhop⟩ := hun
    exact ⟨hop, List.mem_reverse.2 hmem, hhop⟩
  simp only [clientId, Option.getD_some, hsent, hsent', List.reverse_append,
    firstUntrusted_append hnear]

/-- A peer that is not a trusted proxy is counted under its own address. -/
theorem clientId_of_not_isTrusted {trusted : Str} {peer : Option Str}
    (h : isTrusted lib (peerName peer) (fields trusted) = false) (forwarded : Option Str) :
    clientId lib trusted peer forwarded = normalize lib (peerName peer) := by
  simp only [clientId]
  exact if_pos (.inr (by simp [h]))

/-- Behind a trusted proxy a request is counted under the proxy or under an address of the header
that is not trusted. -/
theorem clientId_spec (trusted : Str) (peer forwarded : Option Str) :
    clientId lib trusted peer forwarded = normalize lib (peerName peer) ∨
      ∃ hop ∈ lastHops (forwarded.getD []), ∃ ip, lib.parse hop = some ip ∧
        clientId lib trusted peer forwarded = lib.print ip ∧
        isTrusted lib (lib.print ip) (fields trusted) = false := by
  simp only [clientId]
  split_ifs
  · exact .inl rfl
  · cases hw : firstUntrusted lib (fields trusted) (lastHops (forwarded.getD [])).reverse with
    | none => exact .inl rfl
    | some id =>
      obtain ⟨hop, hmem, ip, hip, rfl, hun⟩ := exists_of_firstUntrusted hw
      exact .inr ⟨hop, List.mem_reverse.1 hmem, ip, hip, rfl, hun⟩

end

/-- **Two requests with the same peer are counted under the same address, whatever their clients
put in front of what the trusted proxies append; and the header of a peer that is not trusted
plays no part.** -/
theorem clientId_congr (lib : IpAddress) (trusted : Str) (peer : Option Str) :
    (∀ appended sent sent', Forwards appended sent → Forwards appended sent' →
        (fields appended).length ≤ MAX_HOPS →
        (∃ hop ∈ fields appended, IsUntrusted lib (fields trusted) hop) →
        clientId lib trusted peer (some sent) = clientId lib trusted peer (some sent')) ∧
      (isTrusted lib (peerName peer) (fields trusted) = false →
        ∀ forwarded forwarded', clientId lib trusted peer forwarded =
          clientId lib trusted peer forwarded') := by
  constructor
  · intro appended sent sent' h h' hlen hun
    rw [clientId_of_forwards trusted peer h hlen hun, clientId_of_forwards trusted peer h' hlen hun]
  · intro h forwarded forwarded'
    rw [clientId_of_not_isTrusted h, clientId_of_not_isTrusted h]

/-! ## Two requests through two proxies -/

namespace Quad

/-- The number a decimal octet stands for. -/
def octet (text : Str) : Option ℕ :=
  if text ≠ [] ∧ text.length ≤ 3 ∧ text.all Char.isDigit ∧ (text.head? = some '0' → text = ['0'])
  then
    let n := text.foldl (fun n c => 10 * n + (c.toNat - '0'.toNat)) 0
    if n ≤ 255 then some n else none
  else none

def octets (text : Str) : Option (List ℕ) :=
  if (text.splitOn '.').length = 4 then (text.splitOn '.').mapM octet else none

/-- The leading bits of an address. -/
def bits (n : ℕ) (address : List ℕ) : ℕ := address.foldl (fun v o => 256 * v + o) 0 / 2 ^ (32 - n)

/-- Addresses in dotted-quad notation, and their networks. -/
def quads : IpAddress where
  Address := Str
  decEq := inferInstance
  parse text := (octets text).map fun _ => text
  print := id
  network text :=
    match text.splitOn '/' with
    | [base, length] =>
      match octets base, octet length with
      | some base, some n =>
        if n ≤ 32 then
          some fun text => (octets text).any fun address => bits n address = bits n base
        else none
      | _, _ => none
    | _ => none

def trusted : Str := "10.0.0.5, 10.0.1.0/24".toList
def peer : Str := "10.0.0.5".toList
def appended : Str := "1.2.3.4, 10.0.1.6".toList

/-- A client that sends a header of its own is counted under its address as one that sends none,
and a client that connects itself is counted under its own. -/
theorem clientId_of_sent :
    clientId quads trusted (some peer) (some ("9.9.9.9, oops".toList ++ ',' :: appended)) =
        clientId quads trusted (some peer) (some appended) ∧
      clientId quads trusted (some "192.0.2.9".toList) (some appended) =
        clientId quads trusted (some "192.0.2.9".toList) none := by
  constructor
  · refine (clientId_congr quads trusted (some peer)).1 appended _ _ (.inr ⟨_, rfl⟩) (.inl rfl)
      (by decide) ⟨"1.2.3.4".toList, by decide, "1.2.3.4".toList, rfl, by decide⟩
  · exact (clientId_congr quads trusted (some "192.0.2.9".toList)).2 (by decide) _ _

example : clientId quads trusted (some peer) (some appended) = "1.2.3.4".toList := by decide

end Quad

end RagLeap.AuthThrottle
