import Mathlib
import RagLeap.Rag.Resp

/-!
# The session of the Redis client

`connect`, `roundTrip` and `command` of `RespClient.java`: the connection is opened on the first
command, a failed one is closed, and an error reply leaves it open. `command` is written over any
`Link`, so that the bytes of the connection (`bytesLink`) and the queue of unread replies
(`queueLink`) run the same code; `run_simulates` carries a simulation of links over to runs.

`unread_of_run` is the result: the replies stay in step with the requests exactly while no reply
left a part of itself unread, and after that every command is answered with an older reply.
`requests_of_run` says what a server reads on a connection.
-/

namespace RagLeap.Rag.Resp

open Consume JStr

/-! ## The code -/

/-- What the url of the server holds besides its address. -/
structure Client where
  user : Option JStr
  password : Option JStr
  db : ℤ

/-- The requests of `connect`. -/
def Client.handshake (client : Client) : List (List Arg) :=
  (match client.password, client.user with
    | none, _ => []
    | some password, some user => [[.text (lit "AUTH"), .text user, .text password]]
    | some password, none => [[.text (lit "AUTH"), .text password]]) ++
  if client.db ≠ 0 then [[.text (lit "SELECT"), .text (decimal client.db)]] else []

/-- What the server and the network do, by the number of the attempt: whether a connection is made,
whether it fails while a reply is awaited, and the reply. -/
structure Net where
  dials : ℕ → Bool
  fails : ℕ → Bool
  reply : ℕ → Reply

/-- A connection: a new one, and a request with its number and the reply that is sent to it. -/
structure Link (κ : Type) where
  fresh : ℕ → κ
  exchange : ℕ → Reply → List Arg → κ → Except Fail Value × κ

/-- `socket` is `null` before the first command and after a failure; `clock` counts the attempts. -/
structure State (κ : Type) where
  socket : Option κ
  clock : ℕ

inductive Raised
  | requestFailed (name : JStr)
  | redis (line : JStr)
  | number (line : JStr)

def Raised.message : Raised → JStr
  | requestFailed name => lit "Redis request failed: " ++ name
  | redis line => lit "Redis error: " ++ line
  | number line => lit "For input string: \"" ++ line ++ lit "\""

/-- What the caller of a command sees. -/
def Fail.raised (name : JStr) : Fail → Raised
  | .redis line => .redis line
  | .number line => .number line
  | _ => .requestFailed name

section Code

variable {κ : Type} (link : Link κ) (net : Net)

def roundTrip (args : List Arg) (clock : ℕ) (conn : κ) : Except Fail Value × κ :=
  if net.fails clock then (.error .network, conn)
  else link.exchange clock (net.reply clock) args conn

/-- The requests of the handshake, up to the first that raises. -/
def shakeHands : List (List Arg) → ℕ → κ → Option Fail × κ × ℕ
  | [], clock, conn => (none, conn, clock)
  | args :: rest, clock, conn =>
    match roundTrip link net args clock conn with
    | (.error e, conn) => (some e, conn, clock + 1)
    | (.ok _, conn) => shakeHands rest (clock + 1) conn

def connect (client : Client) (clock : ℕ) : Option Fail × Option κ × ℕ :=
  if net.dials clock then
    let (raised, conn, clock) := shakeHands link net client.handshake clock (link.fresh clock)
    (raised, some conn, clock)
  else (some .network, none, clock + 1)

/-- An `IOException` closes the connection; other exceptions pass. -/
def caught (socket : Option κ) (clock : ℕ) (e : Fail) : State κ :=
  ⟨if e.isIOException then none else socket, clock⟩

/-- The request of a command on an open connection. -/
def send (name : JStr) (args : List Arg) (clock : ℕ) (conn : κ) : Except Raised Value × State κ :=
  match roundTrip link net (.text name :: args) clock conn with
  | (.ok v, conn) => (.ok v, ⟨some conn, clock + 1⟩)
  | (.error e, conn) => (.error (e.raised name), caught (some conn) (clock + 1) e)

def command (client : Client) (name : JStr) (args : List Arg) (s : State κ) :
    Except Raised Value × State κ :=
  match s.socket with
  | some conn => send link net name args s.clock conn
  | none =>
    match connect link net client s.clock with
    | (none, some conn, clock) => send link net name args clock conn
    | (raised, socket, clock) =>
      let e := raised.getD .network
      (.error (e.raised name), caught socket clock e)

/-- The results of some commands, and the state after them. -/
def run (client : Client) :
    List (JStr × List Arg) → State κ → List (Except Raised Value) × State κ
  | [], s => ([], s)
  | (name, args) :: rest, s =>
    let (result, s) := command link net client name args s
    let (results, s) := run client rest s
    (result :: results, s)

end Code

/-- A connection as the client has it: where it was opened, what was written, and what has come and
is not read. -/
structure Conn where
  opened : ℕ
  written : List UInt8
  unread : List UInt8

def bytesLink : Link Conn where
  fresh clock := ⟨clock, [], []⟩
  exchange _ reply args conn :=
    let (v, rest) := read (conn.unread ++ reply.wire)
    (v, { conn with written := conn.written ++ encode args, unread := rest })

/-! ## The queue of replies -/

/-- A connection as the server sees it: the requests, and the replies that are not read, each with
the number of the request that it answers. -/
structure Queue where
  opened : ℕ
  requests : List (List Arg)
  replies : List (ℕ × Reply)

/-- The first reply, and those behind it. -/
def pop (first : ℕ × Reply) : List (ℕ × Reply) → (ℕ × Reply) × List (ℕ × Reply)
  | [] => (first, [])
  | x :: replies => (x, replies ++ [first])

def queueLink : Link Queue where
  fresh clock := ⟨clock, [], []⟩
  exchange clock reply args q :=
    let ((owner, r), rest) := pop (clock, reply) q.replies
    (r.outcome.1,
      { q with
        requests := q.requests ++ [args]
        replies := r.outcome.2.map (Prod.mk owner) ++ rest })

/-! ## Simulation -/

section Simulation

variable {κ κ' : Type} {link : Link κ} {link' : Link κ'} {R : κ → κ' → Prop}

/-- The links do the same, and their connections stay related. -/
structure Simulates (link : Link κ) (link' : Link κ') (R : κ → κ' → Prop) : Prop where
  fresh : ∀ clock, R (link.fresh clock) (link'.fresh clock)
  exchange : ∀ clock reply args conn conn', R conn conn' →
    (link.exchange clock reply args conn).1 = (link'.exchange clock reply args conn').1 ∧
      R (link.exchange clock reply args conn).2 (link'.exchange clock reply args conn').2

/-- States of two links, with related connections. -/
structure Related (R : κ → κ' → Prop) (s : State κ) (s' : State κ') : Prop where
  socket : Option.Rel R s.socket s'.socket
  clock : s.clock = s'.clock

variable (h : Simulates link link' R) (net : Net) {conn : κ} {conn' : κ'}
include h

theorem roundTrip_simulates (hR : R conn conn') (args : List Arg) (clock : ℕ) :
    (roundTrip link net args clock conn).1 = (roundTrip link' net args clock conn').1 ∧
      R (roundTrip link net args clock conn).2 (roundTrip link' net args clock conn').2 := by
  unfold roundTrip
  split_ifs
  · exact ⟨rfl, hR⟩
  · exact h.exchange clock _ args conn conn' hR

theorem shakeHands_simulates (hR : R conn conn') (requests : List (List Arg)) (clock : ℕ) :
    (shakeHands link net requests clock conn).1 = (shakeHands link' net requests clock conn').1 ∧
      R (shakeHands link net requests clock conn).2.1 (shakeHands link' net requests clock conn').2.1 ∧
      (shakeHands link net requests clock conn).2.2 =
        (shakeHands link' net requests clock conn').2.2 := by
  induction requests generalizing clock conn conn' with
  | nil => exact ⟨rfl, hR, rfl⟩
  | cons args rest ih =>
    obtain ⟨hres, hR'⟩ := roundTrip_simulates h net hR args clock
    rw [shakeHands, shakeHands]
    rcases hx : roundTrip link net args clock conn with ⟨e | v, c⟩
    · rw [hx] at hres hR'
      rcases hy : roundTrip link' net args clock conn' with ⟨e' | v', c'⟩
      · rw [hy] at hres hR'
        exact ⟨congrArg some (Except.error.inj hres), hR', rfl⟩
      · rw [hy] at hres
        cases hres
    · rw [hx] at hres hR'
      rcases hy : roundTrip link' net args clock conn' with ⟨e' | v', c'⟩
      · rw [hy] at hres
        cases hres
      · rw [hy] at hR'
        exact ih hR' (clock + 1)

omit h in
theorem caught_simulates {socket : Option κ} {socket' : Option κ'}
    (hR : Option.Rel R socket socket') (clock : ℕ) (e : Fail) :
    Related R (caught socket clock e) (caught socket' clock e) := by
  unfold caught
  split_ifs
  · exact ⟨.none, rfl⟩
  · exact ⟨hR, rfl⟩

theorem send_simulates (hR : R conn conn') (name : JStr) (args : List Arg) (clock : ℕ) :
    (send link net name args clock conn).1 = (send link' net name args clock conn').1 ∧
      Related R (send link net name args clock conn).2 (send link' net name args clock conn').2 := by
  obtain ⟨hres, hR'⟩ := roundTrip_simulates h net hR (.text name :: args) clock
  unfold send
  rcases hx : roundTrip link net (.text name :: args) clock conn with ⟨e | v, c⟩
  · rw [hx] at hres hR'
    rcases hy : roundTrip link' net (.text name :: args) clock conn' with ⟨e' | v', c'⟩
    · rw [hy] at hres hR'
      obtain rfl := Except.error.inj hres
      exact ⟨rfl, caught_simulates (.some hR') (clock + 1) e⟩
    · rw [hy] at hres
      cases hres
  · rw [hx] at hres hR'
    rcases hy : roundTrip link' net (.text name :: args) clock conn' with ⟨e' | v', c'⟩
    · rw [hy] at hres
      cases hres
    · rw [hy] at hres hR'
      exact ⟨congrArg Except.ok (Except.ok.inj hres), .some hR', rfl⟩

theorem connect_simulates (client : Client) (clock : ℕ) :
    (connect link net client clock).1 = (connect link' net client clock).1 ∧
      Option.Rel R (connect link net client clock).2.1 (connect link' net client clock).2.1 ∧
      (connect link net client clock).2.2 = (connect link' net client clock).2.2 := by
  unfold connect
  split_ifs
  · obtain ⟨hraised, hR, hclock⟩ := shakeHands_simulates h net (h.fresh clock) client.handshake clock
    exact ⟨hraised, .some hR, hclock⟩
  · exact ⟨rfl, .none, rfl⟩

theorem command_simulates (client : Client) (name : JStr) (args : List Arg) {s : State κ}
    {s' : State κ'} (hs : Related R s s') :
    (command link net client name args s).1 = (command link' net client name args s').1 ∧
      Related R (command link net client name args s).2 (command link' net client name args s').2 := by
  obtain ⟨socket, clock⟩ := s
  obtain ⟨socket', clock'⟩ := s'
  obtain ⟨hsocket, hclock⟩ := hs
  cases hclock
  cases hsocket with
  | some hR => exact send_simulates h net hR name args clock
  | none =>
    obtain ⟨hraised, hR, hclock⟩ := connect_simulates h net client clock
    unfold command
    dsimp only
    rcases hx : connect link net client clock with ⟨raised, socket, clock₁⟩
    rcases hy : connect link' net client clock with ⟨raised', socket', clock₁'⟩
    rw [hx, hy] at hraised hR hclock
    cases hraised
    cases hclock
    cases raised with
    | some e => exact ⟨rfl, caught_simulates hR clock₁ e⟩
    | none =>
      cases hR with
      | some hR => exact send_simulates h net hR name args clock₁
      | none => exact ⟨rfl, caught_simulates .none clock₁ .network⟩

/-- Runs of links that do the same have the same results. -/
theorem run_simulates (client : Client) (commands : List (JStr × List Arg)) {s : State κ}
    {s' : State κ'} (hs : Related R s s') :
    (run link net client commands s).1 = (run link' net client commands s').1 ∧
      Related R (run link net client commands s).2 (run link' net client commands s').2 := by
  induction commands generalizing s s' with
  | nil => exact ⟨rfl, hs⟩
  | cons c commands ih =>
    obtain ⟨name, args⟩ := c
    obtain ⟨hresult, hs'⟩ := command_simulates h net client name args hs
    obtain ⟨hresults, hs''⟩ := ih hs'
    exact ⟨congrArg₂ List.cons hresult hresults, hs''⟩

end Simulation

/-! ## The bytes and the queue -/

theorem pop_eq (first : ℕ × Reply) (replies : List (ℕ × Reply)) :
    replies ++ [first] = (pop first replies).1 :: (pop first replies).2 := by
  cases replies with
  | nil => rfl
  | cons x replies => rfl

/-- The bytes of a connection and what stands for them. -/
structure Holds (conn : Conn) (q : Queue) : Prop where
  opened : conn.opened = q.opened
  written : conn.written = q.requests.flatMap encode
  unread : conn.unread = wires (q.replies.map Prod.snd)

theorem bytes_simulates : Simulates bytesLink queueLink Holds where
  fresh _ := ⟨rfl, rfl, rfl⟩
  exchange clock reply args conn q h := by
    obtain ⟨hopened, hwritten, hunread⟩ := h
    have hpop := pop_eq (clock, reply) q.replies
    rcases hx : pop (clock, reply) q.replies with ⟨⟨owner, r⟩, rest⟩
    rw [hx] at hpop
    obtain ⟨used, hwire, htakes⟩ := exists_takes r
    have hstream : conn.unread ++ reply.wire =
        used ++ (wires r.outcome.2 ++ wires (rest.map Prod.snd)) := by
      have hall : conn.unread ++ reply.wire =
          wires ((q.replies ++ [(clock, reply)]).map Prod.snd) := by
        rw [hunread, List.map_append, wires_append]
        exact congrArg _ (List.append_nil _).symm
      rw [hall, hpop, ← List.append_assoc, ← hwire]
      rfl
    have hread : read (conn.unread ++ reply.wire) =
        (r.outcome.1, wires r.outcome.2 ++ wires (rest.map Prod.snd)) := by
      rw [hstream]
      exact htakes.whole _
    have hsnd : ((r.outcome.2.map (Prod.mk owner)) ++ rest).map Prod.snd =
        r.outcome.2 ++ rest.map Prod.snd := by
      rw [List.map_append, List.map_map]
      exact congrArg (· ++ _) (List.map_id _)
    simp only [bytesLink, queueLink, hx, hread]
    refine ⟨trivial, hopened, ?_, ?_⟩
    · rw [hwritten, List.flatMap_append, List.flatMap_singleton]
    · rw [hsnd, wires_append]

/-! ## What a run keeps -/

section Keeps

variable {κ : Type} {link : Link κ} {net : Net} {P : ℕ → κ → Prop} {clock : ℕ} {conn : κ}

/-- What holds of a new connection, and after every reply. -/
structure Kept (link : Link κ) (net : Net) (P : ℕ → κ → Prop) : Prop where
  fresh : ∀ clock, P clock (link.fresh clock)
  exchange : ∀ clock args conn, P clock conn →
    P (clock + 1) (link.exchange clock (net.reply clock) args conn).2

variable (hP : Kept link net P)
include hP

theorem roundTrip_keeps (h : P clock conn) (args : List Arg) :
    (roundTrip link net args clock conn).1 = .error .network ∨
      P (clock + 1) (roundTrip link net args clock conn).2 := by
  unfold roundTrip
  split_ifs
  · exact .inl rfl
  · exact .inr (hP.exchange clock args conn h)

theorem shakeHands_keeps (h : P clock conn) (requests : List (List Arg)) :
    (∃ e, (shakeHands link net requests clock conn).1 = some e ∧ e.isIOException = true) ∨
      P (shakeHands link net requests clock conn).2.2 (shakeHands link net requests clock conn).2.1 := by
  induction requests generalizing clock conn with
  | nil => exact .inr h
  | cons args rest ih =>
    have hkeeps := roundTrip_keeps hP h args
    rw [shakeHands]
    rcases hx : roundTrip link net args clock conn with ⟨e | v, c⟩
    · rw [hx] at hkeeps
      rcases hkeeps with hnetwork | hkeeps
      · exact .inl ⟨e, rfl, by rw [Except.error.inj hnetwork]; rfl⟩
      · exact .inr hkeeps
    · rw [hx] at hkeeps
      rcases hkeeps with hnetwork | hkeeps
      · cases hnetwork
      · exact ih hkeeps

omit hP in
theorem caught_keeps {socket : Option κ} {e : Fail}
    (h : e.isIOException = true ∨ ∀ c, socket = some c → P clock c) :
    ∀ c, (caught socket clock e).socket = some c → P clock c := by
  intro c hc
  unfold caught at hc
  split_ifs at hc with he
  exact (h.resolve_left he) c hc

theorem send_keeps (h : P clock conn) (name : JStr) (args : List Arg) :
    ∀ c, (send link net name args clock conn).2.socket = some c →
      P (send link net name args clock conn).2.clock c := by
  have hkeeps := roundTrip_keeps hP h (.text name :: args)
  unfold send
  rcases hx : roundTrip link net (.text name :: args) clock conn with ⟨e | v, c⟩
  · rw [hx] at hkeeps
    refine caught_keeps (hkeeps.imp (fun hnetwork => ?_) fun hkept c' hc' => ?_)
    · rw [Except.error.inj hnetwork]
      rfl
    · obtain rfl := Option.some.inj hc'
      exact hkept
  · rw [hx] at hkeeps
    intro c' hc'
    obtain rfl := Option.some.inj hc'
    rcases hkeeps with hnetwork | hkeeps
    · cases hnetwork
    · exact hkeeps

theorem connect_keeps (client : Client) (clock : ℕ) :
    (∃ e, (connect link net client clock).1 = some e ∧ e.isIOException = true) ∨
      ∀ c, (connect link net client clock).2.1 = some c → P (connect link net client clock).2.2 c := by
  unfold connect
  split_ifs
  · refine (shakeHands_keeps hP (hP.fresh clock) client.handshake).imp id fun hkeeps c hc => ?_
    obtain rfl := Option.some.inj hc
    exact hkeeps
  · exact .inl ⟨.network, rfl, rfl⟩

theorem command_keeps (client : Client) (name : JStr) (args : List Arg) {s : State κ}
    (h : ∀ c, s.socket = some c → P s.clock c) :
    ∀ c, (command link net client name args s).2.socket = some c →
      P (command link net client name args s).2.clock c := by
  unfold command
  rcases hs : s.socket with _ | conn
  · have hkeeps := connect_keeps hP client s.clock
    dsimp only
    rcases hx : connect link net client s.clock with ⟨_ | e, _ | conn, clock⟩
    · exact caught_keeps (.inl rfl)
    · rw [hx] at hkeeps
      rcases hkeeps with ⟨e, he, -⟩ | hkeeps
      · cases he
      · exact send_keeps hP (hkeeps conn rfl) name args
    · exact caught_keeps (.inr fun c hc => by cases hc)
    · rw [hx] at hkeeps
      refine caught_keeps (hkeeps.imp ?_ id)
      rintro ⟨e', he, hio⟩
      rwa [← Option.some.inj he] at hio
  · exact send_keeps hP (h conn hs) name args

theorem run_keeps (client : Client) (commands : List (JStr × List Arg)) {s : State κ}
    (h : ∀ c, s.socket = some c → P s.clock c) :
    ∀ c, (run link net client commands s).2.socket = some c →
      P (run link net client commands s).2.clock c := by
  induction commands generalizing s with
  | nil => exact h
  | cons c commands ih =>
    obtain ⟨name, args⟩ := c
    exact ih (command_keeps hP client name args h)

end Keeps

/-! ## In step -/

/-- The replies that are not read, between two attempts. -/
structure Backlog (net : Net) (clock : ℕ) (q : Queue) : Prop where
  opened_le : q.opened ≤ clock
  owned : ∀ x ∈ q.replies, q.opened ≤ x.1 ∧ x.1 < clock
  nil_iff : q.replies = [] ↔
    ∀ j, q.opened ≤ j → j < clock → (net.reply j).outcome.2 = []

theorem backlog_kept (net : Net) : Kept queueLink net (Backlog net) where
  fresh clock := by
    constructor
    · exact Nat.le_refl clock
    · intro x hx
      cases hx
    · refine iff_of_true rfl fun j hj hlt => ?_
      exact absurd (Nat.lt_of_le_of_lt hj hlt) (Nat.lt_irrefl clock)
  exchange clock args q h := by
    obtain ⟨hopened, howned, hnil⟩ := h
    cases hreplies : q.replies with
    | nil =>
      have hq : (queueLink.exchange clock (net.reply clock) args q).2.replies =
          (net.reply clock).outcome.2.map (Prod.mk clock) ++ [] := by
        simp only [queueLink, hreplies, pop]
      rw [List.append_nil] at hq
      constructor
      · exact Nat.le_succ_of_le hopened
      · rw [hq]
        intro x hx
        obtain ⟨r, -, rfl⟩ := List.mem_map.1 hx
        exact ⟨hopened, Nat.lt_succ_self clock⟩
      · rw [hq, List.map_eq_nil_iff]
        constructor
        · intro hleft j hj hlt
          rcases Nat.lt_succ_iff_lt_or_eq.1 hlt with hlt | rfl
          · exact hnil.1 hreplies j hj hlt
          · exact hleft
        · intro hall
          exact hall clock hopened (Nat.lt_succ_self clock)
    | cons x rest =>
      have hq : (queueLink.exchange clock (net.reply clock) args q).2.replies =
          x.2.outcome.2.map (Prod.mk x.1) ++ (rest ++ [(clock, net.reply clock)]) := by
        simp only [queueLink, hreplies, pop]
      have hx := howned x (by rw [hreplies]; exact List.mem_cons_self)
      constructor
      · exact Nat.le_succ_of_le hopened
      · rw [hq]
        intro y hy
        rcases List.mem_append.1 hy with hy | hy
        · obtain ⟨r, -, rfl⟩ := List.mem_map.1 hy
          exact ⟨hx.1, Nat.lt_succ_of_lt hx.2⟩
        · rcases List.mem_append.1 hy with hy | hy
          · have hmem := howned y (by rw [hreplies]; exact List.mem_cons_of_mem x hy)
            exact ⟨hmem.1, Nat.lt_succ_of_lt hmem.2⟩
          · rw [List.mem_singleton.1 hy]
            exact ⟨hopened, Nat.lt_succ_self clock⟩
      · rw [hq]
        refine iff_of_false (by simp) fun hall => ?_
        have hrest := hnil.2 fun j hj hlt => hall j hj (Nat.lt_succ_of_lt hlt)
        rw [hreplies] at hrest
        cases hrest

/-! ## A refused password -/

namespace Sample

/-- A client with a password, which the server does not know. -/
def client : Client := ⟨none, some (lit "secret"), 0⟩

/-- The password is refused, and the second command is answered with an array that begins with an
error. -/
def net : Net where
  dials _ := true
  fails _ := false
  reply
    | 0 => .error (ascii (lit "ERR invalid password")) (by decide +kernel)
    | 2 => .array ⟨2, by decide⟩ fun i =>
      if i.val = 0 then .error (ascii (lit "ERR unknown")) (by decide +kernel)
      else .status (ascii (lit "OK")) (by decide +kernel)
    | _ => .status (ascii (lit "PONG")) (by decide +kernel)

def commands : List (JStr × List Arg) :=
  [(lit "PING", []), (lit "PING", []), (lit "EXEC", []), (lit "PING", [])]

/-- The connection stays open; the last command is answered with the rest of the array. -/
theorem exists_conn : ∃ conn, (run bytesLink net client commands ⟨none, 0⟩).2.socket = some conn ∧
    (run bytesLink net client commands ⟨none, 0⟩).1.getLast? = some (.ok (.text (lit "OK"))) := by
  have hclosed : Related Holds (⟨none, 0⟩ : State Conn) (⟨none, 0⟩ : State Queue) := ⟨.none, rfl⟩
  obtain ⟨hresults, hsocket, -⟩ := run_simulates bytes_simulates net client commands hclosed
  have hqueue : (run queueLink net client commands ⟨none, 0⟩).2.socket.isSome = true := rfl
  have hlast : (run queueLink net client commands ⟨none, 0⟩).1.getLast? =
      some (.ok (.text (lit "OK"))) := rfl
  rw [hresults]
  generalize (run bytesLink net client commands ⟨none, 0⟩).2.socket = socket at *
  generalize (run queueLink net client commands ⟨none, 0⟩).2.socket = socket' at *
  cases hsocket with
  | none => cases hqueue
  | some hholds => exact ⟨_, rfl, hlast⟩

end Sample

/-- **In step until a part of a reply is left unread.** After every run of commands, what stands
unread in an open connection are replies to earlier requests of it, and there are none exactly if
no reply on the connection left a part of itself unread. The next command is answered with the first
of them: with its own reply exactly if there are none. -/
theorem unread_of_run (client : Client) (net : Net) (commands : List (JStr × List Arg)) {conn : Conn}
    (h : (run bytesLink net client commands ⟨none, 0⟩).2.socket = some conn) :
    ∃ replies : List (ℕ × Reply), conn.unread = wires (replies.map Prod.snd) ∧
      (∀ x ∈ replies, conn.opened ≤ x.1 ∧
        x.1 < (run bytesLink net client commands ⟨none, 0⟩).2.clock) ∧
      (replies = [] ↔ ∀ j, conn.opened ≤ j →
        j < (run bytesLink net client commands ⟨none, 0⟩).2.clock → (net.reply j).outcome.2 = []) ∧
      ∀ name args, net.fails (run bytesLink net client commands ⟨none, 0⟩).2.clock = false →
        ∃ owner r rest,
          replies ++ [((run bytesLink net client commands ⟨none, 0⟩).2.clock,
            net.reply (run bytesLink net client commands ⟨none, 0⟩).2.clock)] = (owner, r) :: rest ∧
          (command bytesLink net client name args
            (run bytesLink net client commands ⟨none, 0⟩).2).1 =
              r.outcome.1.mapError (Fail.raised name) := by
  have hclosed : Related Holds (⟨none, 0⟩ : State Conn) (⟨none, 0⟩ : State Queue) := ⟨.none, rfl⟩
  obtain ⟨-, hrelated⟩ := run_simulates bytes_simulates net client commands hclosed
  have hkeeps := run_keeps (backlog_kept net) client commands (s := ⟨none, 0⟩) (by simp)
  have hcommand (name : JStr) (args : List Arg) :=
    (command_simulates bytes_simulates net client name args hrelated).1
  generalize run bytesLink net client commands ⟨none, 0⟩ = bytes at *
  generalize run queueLink net client commands ⟨none, 0⟩ = queue at *
  obtain ⟨results, socket, clock⟩ := bytes
  obtain ⟨results', socket', clock'⟩ := queue
  obtain ⟨hsocket, hclock⟩ := hrelated
  cases hclock
  obtain rfl : socket = some conn := h
  cases hsocket with
  | @some _ q hholds =>
    obtain ⟨-, howned, hnil⟩ := hkeeps q rfl
    refine ⟨q.replies, hholds.unread, ?_, ?_, fun name args hfails => ?_⟩
    · rw [hholds.opened]
      exact howned
    · rw [hholds.opened]
      exact hnil
    · have hpop := pop_eq (clock, net.reply clock) q.replies
      rcases hx : pop (clock, net.reply clock) q.replies with ⟨⟨owner, r⟩, rest⟩
      rw [hx] at hpop
      refine ⟨owner, r, rest, hpop, ?_⟩
      rw [hcommand name args]
      have hfails' : ¬ net.fails clock = true := by
        simp [show net.fails clock = false from hfails]
      rcases hr : r.outcome.1 with e | v
      · simp only [command, send, roundTrip, if_neg hfails', queueLink, hx, hr]
        rfl
      · simp only [command, send, roundTrip, if_neg hfails', queueLink, hx, hr]
        rfl

theorem Sample.exists_unread : ∃ conn : Conn, ∃ replies : List (ℕ × Reply),
    conn.unread = wires (replies.map Prod.snd) ∧
    (replies = [] ↔ ∀ j, conn.opened ≤ j →
      j < (run bytesLink net client commands ⟨none, 0⟩).2.clock → (net.reply j).outcome.2 = []) := by
  obtain ⟨conn, hconn, -⟩ := exists_conn
  obtain ⟨replies, hunread, -, hnil, -⟩ := unread_of_run client net commands hconn
  exact ⟨conn, replies, hunread, hnil⟩

/-! ## The requests -/

/-- The request of a command. -/
def sent (c : JStr × List Arg) : List Arg := .text c.1 :: c.2

/-- The requests on a connection, after some commands and their results: the handshake, and the
commands since it was opened. The handshake is cut short only by a reply that the command before
them raised and that left the connection open. -/
def Sent (client : Client) (history : List ((JStr × List Arg) × Except Raised Value))
    (requests : List (List Arg)) : Prop :=
  ∃ n before since, history = before ++ since ∧
    requests = client.handshake.take n ++ since.map (sent ∘ Prod.fst) ∧
    (∀ x ∈ since, ∀ name, x.2 ≠ .error (.requestFailed name)) ∧
    (n = client.handshake.length ∨
      ∃ c e, before.getLast? = some (c, .error e) ∧ ∀ name, e ≠ .requestFailed name)

theorem raised_ne {name : JStr} {e : Fail} (he : e.isIOException = false) (name' : JStr) :
    e.raised name ≠ .requestFailed name' := by
  intro h
  cases e with
  | redis line => cases h
  | number line => cases h
  | _ => cases he

theorem caught_socket {κ : Type} {socket : Option κ} {clock : ℕ} {e : Fail} {c : κ}
    (h : (caught socket clock e).socket = some c) : e.isIOException = false ∧ socket = some c := by
  unfold caught at h
  split_ifs at h with he
  exact ⟨by simpa using he, h⟩

section Requests

variable (net : Net) {client : Client} {q : Queue}
  {history : List ((JStr × List Arg) × Except Raised Value)}

theorem roundTrip_requests (args : List Arg) (clock : ℕ) (q : Queue) :
    (roundTrip queueLink net args clock q).1 = .error .network ∨
      (roundTrip queueLink net args clock q).2.requests = q.requests ++ [args] := by
  unfold roundTrip
  split_ifs
  · exact .inl rfl
  · exact .inr rfl

theorem shakeHands_requests (requests : List (List Arg)) (clock : ℕ) (q : Queue) :
    (∃ e, (shakeHands queueLink net requests clock q).1 = some e ∧ e.isIOException = true) ∨
      ∃ n, (shakeHands queueLink net requests clock q).2.1.requests = q.requests ++ requests.take n ∧
        ((shakeHands queueLink net requests clock q).1 = none → n = requests.length) := by
  induction requests generalizing clock q with
  | nil => exact .inr ⟨0, (List.append_nil _).symm, fun _ => rfl⟩
  | cons args rest ih =>
    have hstep := roundTrip_requests net args clock q
    rw [shakeHands]
    rcases hx : roundTrip queueLink net args clock q with ⟨e | v, q'⟩
    · rw [hx] at hstep
      rcases hstep with hnetwork | hstep
      · exact .inl ⟨e, rfl, by rw [Except.error.inj hnetwork]; rfl⟩
      · exact .inr ⟨1, hstep, fun h => by cases h⟩
    · rw [hx] at hstep
      rcases hstep with hnetwork | hstep
      · cases hnetwork
      · refine (ih (clock + 1) q').imp id ?_
        rintro ⟨n, hrequests, hall⟩
        refine ⟨n + 1, ?_, fun h => congrArg Nat.succ (hall h)⟩
        rw [hrequests, hstep, List.take_succ_cons, List.append_assoc]
        rfl

/-- A command on an open connection is added to the requests, unless the connection is lost. -/
theorem send_sent (h : Sent client history q.requests) (name : JStr) (args : List Arg)
    (clock : ℕ) :
    ∀ q', (send queueLink net name args clock q).2.socket = some q' →
      Sent client (history ++ [((name, args), (send queueLink net name args clock q).1)])
        q'.requests := by
  obtain ⟨n, before, since, hsplit, hrequests, hkept, hshaken⟩ := h
  have hstep := roundTrip_requests net (.text name :: args) clock q
  have hsent (result : Except Raised Value) (q' : Queue)
      (hq' : q'.requests = q.requests ++ [.text name :: args])
      (hresult : ∀ name', result ≠ .error (.requestFailed name')) :
      Sent client (history ++ [((name, args), result)]) q'.requests := by
    refine ⟨n, before, since ++ [((name, args), result)], ?_, ?_, ?_, hshaken⟩
    · rw [hsplit, List.append_assoc]
    · rw [hq', hrequests, List.map_append, List.append_assoc]
      rfl
    · intro x hx
      rcases List.mem_append.1 hx with hx | hx
      · exact hkept x hx
      · rw [List.mem_singleton.1 hx]
        exact hresult
  unfold send
  rcases hx : roundTrip queueLink net (.text name :: args) clock q with ⟨e | v, c⟩
  · rw [hx] at hstep
    intro q' hq'
    obtain ⟨hio, hsome⟩ := caught_socket hq'
    obtain rfl := Option.some.inj hsome
    rcases hstep with hnetwork | hstep
    · rw [Except.error.inj hnetwork] at hio
      cases hio
    · exact hsent _ _ hstep fun name' hname => raised_ne hio name' (Except.error.inj hname)
  · rw [hx] at hstep
    intro q' hq'
    obtain rfl := Option.some.inj hq'
    rcases hstep with hnetwork | hstep
    · cases hnetwork
    · exact hsent _ _ hstep fun name' hname => by cases hname

theorem command_sent {s : State Queue}
    (h : ∀ q, s.socket = some q → Sent client history q.requests) (name : JStr) (args : List Arg) :
    ∀ q', (command queueLink net client name args s).2.socket = some q' →
      Sent client (history ++ [((name, args), (command queueLink net client name args s).1)])
        q'.requests := by
  unfold command
  rcases hs : s.socket with _ | q
  · dsimp only
    rcases hx : connect queueLink net client s.clock with ⟨raised, socket, clock⟩
    have hshaken : (∃ e, raised = some e ∧ e.isIOException = true) ∨
        ∀ q, socket = some q → ∃ n, q.requests = client.handshake.take n ∧
          (raised = none → n = client.handshake.length) := by
      unfold connect at hx
      split_ifs at hx
      · have hrequests := shakeHands_requests net client.handshake s.clock (queueLink.fresh s.clock)
        obtain ⟨rfl, hx⟩ := Prod.ext_iff.1 hx
        obtain ⟨rfl, -⟩ := Prod.ext_iff.1 hx
        refine hrequests.imp id fun hrequests q hq => ?_
        obtain rfl := Option.some.inj hq
        exact hrequests
      · obtain ⟨rfl, -⟩ := Prod.ext_iff.1 hx
        exact .inl ⟨.network, rfl, rfl⟩
    have hraised (e : Fail) (he : raised = some e) : ∀ q', (caught socket clock e).socket = some q' →
        Sent client (history ++ [((name, args), .error (e.raised name))]) q'.requests := by
      intro q' hq'
      obtain ⟨hio, hsome⟩ := caught_socket hq'
      rcases hshaken with ⟨e', he', hio'⟩ | hshaken
      · rw [he] at he'
        rw [Option.some.inj he', hio'] at hio
        cases hio
      · obtain ⟨n, hrequests, -⟩ := hshaken q' hsome
        refine ⟨n, _, [], (List.append_nil _).symm, ?_, ?_, .inr ⟨(name, args), e.raised name, ?_, ?_⟩⟩
        · rw [hrequests]
          exact (List.append_nil _).symm
        · intro x hx
          cases hx
        · exact List.getLast?_concat
        · exact raised_ne hio
    cases raised with
    | some e => exact hraised e rfl
    | none =>
      cases socket with
      | none =>
        intro q' hq'
        cases (caught_socket hq').2
      | some q =>
        rcases hshaken with ⟨e, he, -⟩ | hshaken
        · cases he
        · obtain ⟨n, hrequests, hall⟩ := hshaken q rfl
          refine send_sent net ⟨n, history, [], (List.append_nil _).symm, ?_, ?_, .inl (hall rfl)⟩
            name args clock
          · rw [hrequests]
            exact (List.append_nil _).symm
          · intro x hx
            cases hx
  · exact send_sent net (h q hs) name args s.clock

theorem run_sent {s : State Queue} (h : ∀ q, s.socket = some q → Sent client history q.requests)
    (commands : List (JStr × List Arg)) :
    ∀ q', (run queueLink net client commands s).2.socket = some q' →
      Sent client (history ++ commands.zip (run queueLink net client commands s).1) q'.requests := by
  induction commands generalizing s history with
  | nil =>
    rw [List.zip_nil_left, List.append_nil]
    exact h
  | cons c commands ih =>
    obtain ⟨name, args⟩ := c
    intro q' hq'
    have hrest := ih (command_sent net h name args) q' hq'
    rwa [List.append_assoc] at hrest

end Requests

/-- **What a server reads on a connection.** After every run of commands, what was written on an open
connection are the requests of the handshake and then the commands since it was opened, each once
and in their order, whatever their results. The handshake is complete, unless the command that opened
the connection raised what the server answered to it: then the commands follow all the same. -/
theorem requests_of_run (client : Client) (net : Net) (commands : List (JStr × List Arg)) {conn : Conn}
    (h : (run bytesLink net client commands ⟨none, 0⟩).2.socket = some conn) :
    ∃ n before since,
      commands.zip (run bytesLink net client commands ⟨none, 0⟩).1 = before ++ since ∧
      conn.written =
        (client.handshake.take n ++ since.map fun x => .text x.1.1 :: x.1.2).flatMap encode ∧
      (∀ x ∈ since, ∀ name, x.2 ≠ .error (.requestFailed name)) ∧
      (n = client.handshake.length ∨
        ∃ c e, before.getLast? = some (c, .error e) ∧ ∀ name, e ≠ .requestFailed name) := by
  have hclosed : Related Holds (⟨none, 0⟩ : State Conn) (⟨none, 0⟩ : State Queue) := ⟨.none, rfl⟩
  obtain ⟨hresults, hrelated⟩ := run_simulates bytes_simulates net client commands hclosed
  obtain ⟨hsocket, -⟩ := hrelated
  rw [h] at hsocket
  have hsent := @run_sent net client [] ⟨none, 0⟩ (by simp) commands
  rcases hq : (run queueLink net client commands ⟨none, 0⟩).2.socket with _ | q
  · rw [hq] at hsocket
    cases hsocket
  · rw [hq] at hsocket
    cases hsocket with
    | some hholds =>
      obtain ⟨n, before, since, hsplit, hrequests, hkept, hshaken⟩ := hsent q hq
      refine ⟨n, before, since, ?_, ?_, hkept, hshaken⟩
      · rw [hresults]
        exact hsplit
      · rw [hholds.written, hrequests]
        rfl

theorem Sample.exists_requests : ∃ conn : Conn, ∃ n before since,
    commands.zip (run bytesLink net client commands ⟨none, 0⟩).1 = before ++ since ∧
    conn.written =
      (client.handshake.take n ++ since.map fun x => .text x.1.1 :: x.1.2).flatMap encode := by
  obtain ⟨conn, hconn, -⟩ := exists_conn
  obtain ⟨n, before, since, hzip, hwritten, -⟩ := requests_of_run client net commands hconn
  exact ⟨conn, n, before, since, hzip, hwritten⟩

end RagLeap.Rag.Resp
