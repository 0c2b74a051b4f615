import Mathlib
import RagLeap.Foundations.Pool
import RagLeap.Foundations.SessionLock
import RagLeap.Foundations.Text

/-!
# One scheduler per database

`core/scheduler_leader.py`: the background jobs run in the process that holds an advisory lock of the
database. `is_leader` checks the connection with the lock, or tries to take the lock over a new one.
Any number of processes, each with any number of jobs, run over one server, which may end a session
at any time, and ends one that was closed at some later time.

`running_holds` is the safety of the election: a job relies on a session that holds the lock or is
over, so that of two jobs at once in different processes one has lost its session. `held_by_leader`
says that the lock is never held without use, and `isLeader_undisturbed` whom a check elects.
-/

namespace RagLeap.SchedulerLeader

/-! ## The server and the processes -/

/-- A thread of a process. -/
structure Thread (P : Type) where
  process : P
  number : ℕ
  deriving DecidableEq

/-- A statement of a thread. `close` ends the session at the client; `jobBegins` and `jobEnds` stand
for the job that a check allows. -/
inductive Stmt
  | acquire
  | unlock
  | leaderConn
  | setLeaderConn (conn : Option ℕ)
  | connect
  | selectOne (conn : ℕ)
  | tryLock (conn : ℕ)
  | close (conn : ℕ)
  | jobBegins
  | jobEnds

/-- The answer. `selectOne` says whether the connection is alive; `none`: it raises. -/
abbrev Stmt.Res : Stmt → Type
  | leaderConn => Option ℕ
  | connect => Option ℕ
  | selectOne _ => Bool
  | tryLock _ => Option Bool
  | _ => Unit

def Statements (P : Type) : Signature where
  Op := Thread P × Stmt
  Res o := o.2.Res

/-- A statement to the database: it is carried out, or it is not and raises, or it is and raises. -/
inductive Fault
  | none | refused | lostReply
  deriving DecidableEq

/-- The sessions that end before a statement, and how the statement goes. -/
structure Choice where
  ended : List ℕ
  fault : Fault

/-- The server, and the variables of each process: `_lock`, `_leader_conn`. `closed` are the sessions
closed by their clients. Of a thread it is recorded which session its last check relied on, until
its job is over, and whether the job runs. -/
structure World (P : Type) where
  sessions : Sessions P
  closed : List ℕ
  locked : P → Bool
  leaderConn : P → Option ℕ
  relies : Thread P → Option ℕ
  running : Thread P → Bool

def World.initial {P : Type} : World P where
  sessions := .empty
  closed := []
  locked _ := false
  leaderConn _ := none
  relies _ := none
  running _ := false

section Server

variable {P : Type} [DecidableEq P]

/-- What a thread's statement does; `none`: it waits for `_lock`. -/
def actOf (t : Thread P) (w : World P) (fault : Fault) : (o : Stmt) → Option (o.Res × World P)
  | .acquire =>
    if w.locked t.process then none
    else some ((), { w with locked := Function.update w.locked t.process true })
  | .unlock => some ((), { w with locked := Function.update w.locked t.process false })
  | .leaderConn => some (w.leaderConn t.process, w)
  | .setLeaderConn conn =>
    some ((), { w with leaderConn := Function.update w.leaderConn t.process conn })
  | .connect =>
    match fault with
    | .refused => some (none, w)
    | .lostReply => some (none, { w with sessions := w.sessions.openFor t.process })
    | .none =>
      some (some w.sessions.clients.length, { w with sessions := w.sessions.openFor t.process })
  | .selectOne conn =>
    if conn ∈ w.sessions.live ∧ fault = .none then
      some (true, { w with relies := Function.update w.relies t (some conn) })
    else some (false, w)
  | .tryLock conn =>
    match fault, w.sessions.tryLock conn with
    | .none, some (true, sessions) =>
      some (some true,
        { w with sessions := sessions, relies := Function.update w.relies t (some conn) })
    | .none, some (false, sessions) => some (some false, { w with sessions := sessions })
    | .lostReply, some (_, sessions) => some (none, { w with sessions := sessions })
    | _, _ => some (none, w)
  | .close conn => some ((), { w with closed := conn :: w.closed })
  | .jobBegins => some ((), { w with running := Function.update w.running t true })
  | .jobEnds =>
    some ((), { w with
      running := Function.update w.running t false
      relies := Function.update w.relies t none })

def World.expire (ended : List ℕ) (w : World P) : World P :=
  { w with sessions := w.sessions.expire ended }

def server : Machine (Statements P) (World P) Choice where
  act o choice w := actOf o.1 (w.expire choice.ended) choice.fault o.2

end Server

/-! ## The code -/

section Code

variable {P : Type}

/-- `os.environ`, and the lower case of a text. -/
structure Env where
  lower : Str → Str
  SCHEDULER_ENABLED : Option Str

def enabled (env : Env) : Bool :=
  env.lower (Str.strip (env.SCHEDULER_ENABLED.getD "true".toList)) ∉
    ["false", "0", "no", "off"].map String.toList

def ask (t : Thread P) (o : Stmt) : Prog (Statements P) o.Res := .op (t, o) .ret

/-- From `conn = None` on: a new connection tries to take the lock. -/
def takeLock (t : Thread P) : Prog (Statements P) Bool :=
  ask t .connect >>= fun (conn : Option ℕ) =>
    match conn with
    | none => ask t .unlock >>= fun _ => .ret false
    | some c =>
      ask t (.tryLock c) >>= fun (got : Option Bool) =>
        if got = some true then
          ask t (.setLeaderConn (some c)) >>= fun _ => ask t .unlock >>= fun _ => .ret true
        else ask t (.close c) >>= fun _ => ask t .unlock >>= fun _ => .ret false

def isLeader (env : Env) (t : Thread P) : Prog (Statements P) Bool :=
  if enabled env then
    ask t .acquire >>= fun _ => ask t .leaderConn >>= fun (conn : Option ℕ) =>
      match conn with
      | none => takeLock t
      | some c =>
        ask t (.selectOne c) >>= fun (alive : Bool) =>
          if alive then ask t .unlock >>= fun _ => .ret true
          else ask t (.close c) >>= fun _ => ask t (.setLeaderConn none) >>= fun _ => takeLock t
  else .ret false

def release (t : Thread P) : Prog (Statements P) Unit :=
  ask t .acquire >>= fun _ => ask t .leaderConn >>= fun (conn : Option ℕ) =>
    match conn with
    | none => ask t .unlock
    | some c =>
      ask t (.close c) >>= fun _ => ask t (.setLeaderConn none) >>= fun _ => ask t .unlock

/-- `leader_only(job)`, run once. -/
def leaderOnly (env : Env) (t : Thread P) : Prog (Statements P) Unit :=
  isLeader env t >>= fun leads =>
    if leads then ask t .jobBegins >>= fun _ => ask t .jobEnds else .ret ()

inductive Call
  | leaderOnly | release

/-- What a thread runs, one call after the other. -/
def work (env : Env) (t : Thread P) : List Call → Prog (Statements P) Unit
  | [] => .ret ()
  | .leaderOnly :: calls => leaderOnly env t >>= fun _ => work env t calls
  | .release :: calls => release t >>= fun _ => work env t calls

/-- Processes, with the calls of each of their threads, over a server without sessions. -/
def processes (env : P → Env) (calls : Thread P → List Call) :
    Pool (Statements P) (Thread P) (World P) Unit where
  threads t := work (env t.process) t (calls t)
  state := .initial

end Code

/-! ## Typestate -/

/-- Where a thread stands. From `inside` to `won` it has `_lock`; `found` and `closing` are about the
connection that the process has, and from `free` to `refused` it has none. -/
inductive Phase
  | out
  | inside
  | found (c : ℕ)
  | closing (c : ℕ)
  | free
  | trying (c : ℕ)
  | granted (c : ℕ)
  | refused (c : ℕ)
  | won
  | leading
  | running

namespace Phase

/-- The thread has `_lock`. -/
def isInside : Phase → Bool
  | out | leading | running => false
  | _ => true

/-- The thread is between a check that elected its process and the end of the job. -/
def isElected : Phase → Bool
  | granted _ | won | leading | running => true
  | _ => false

/-- The session over which the thread tries to take the lock. -/
def attempt : Phase → Option ℕ
  | trying c | granted c | refused c => some c
  | _ => none

end Phase

def permits (φ : Phase) : Stmt → Prop
  | .acquire => φ = .out
  | .unlock => φ = .free ∨ φ = .won
  | .leaderConn => φ = .inside
  | .setLeaderConn none => ∃ c, φ = .closing c
  | .setLeaderConn (some c) => φ = .granted c
  | .connect => φ = .free
  | .selectOne c => φ = .found c
  | .tryLock c => φ = .trying c
  | .close c => φ = .found c ∨ φ = .refused c
  | .jobBegins => φ = .leading
  | .jobEnds => φ = .running

def next : Phase → (o : Stmt) → o.Res → Phase
  | _, .acquire, _ => .inside
  | _, .leaderConn, none => .free
  | _, .leaderConn, some c => .found c
  | _, .selectOne _, true => .won
  | φ, .selectOne _, false => φ
  | .found c, .close _, _ => .closing c
  | _, .close _, _ => .free
  | _, .setLeaderConn none, _ => .free
  | _, .setLeaderConn (some _), _ => .won
  | _, .connect, none => .free
  | _, .connect, some c => .trying c
  | _, .tryLock c, some true => .granted c
  | _, .tryLock c, _ => .refused c
  | .won, .unlock, _ => .leading
  | _, .unlock, _ => .out
  | _, .jobBegins, _ => .running
  | _, .jobEnds, _ => .out

section Election

variable {P : Type}

/-- Typestate of the thread `t`. -/
def electing (t : Thread P) : Protocol (Statements P) where
  Phase := Phase
  permits φ o := o.1 = t ∧ permits φ o.2
  next φ o r := some (next φ o.2 r)

theorem ask_follows {t : Thread P} {φ : Phase} {o : Stmt} {α : Type} {Q : Phase → α → Prop}
    {f : o.Res → Prog (Statements P) α} (ho : permits φ o)
    (hf : ∀ r, (f r).Follows (electing t) Q (next φ o r)) :
    (ask t o >>= f).Follows (electing t) Q φ := by
  refine ⟨⟨rfl, ho⟩, fun r φ' h => ?_⟩
  obtain rfl := Option.some.inj h
  exact hf r

/-- A check ends before the job that it allows, or outside. -/
def Elects (φ : Phase) (leads : Bool) : Prop := φ = if leads then .leading else .out

theorem takeLock_follows (t : Thread P) : (takeLock t).Follows (electing t) Elects .free := by
  refine ask_follows rfl fun conn => ?_
  cases conn with
  | none => exact ask_follows (.inl rfl) fun _ => rfl
  | some c =>
    have hrefused : (ask t (.close c) >>= fun _ => ask t .unlock >>= fun _ => .ret false).Follows
        (electing t) Elects (.refused c) :=
      ask_follows (.inr rfl) fun _ => ask_follows (.inl rfl) fun _ => rfl
    refine ask_follows rfl fun got => ?_
    cases got with
    | none => exact hrefused
    | some got =>
      cases got with
      | false => exact hrefused
      | true => exact ask_follows rfl fun _ => ask_follows (.inr rfl) fun _ => rfl

/-- The connection that the process has is given up. -/
theorem closing_follows {t : Thread P} {c : ℕ} {α : Type} {Q : Phase → α → Prop}
    {p : Prog (Statements P) α} (hp : p.Follows (electing t) Q Phase.free) :
    (ask t (.close c) >>= fun _ => ask t (.setLeaderConn none) >>= fun _ => p).Follows
      (electing t) Q (Phase.found c) :=
  ask_follows (.inl rfl) fun _ => ask_follows ⟨c, rfl⟩ fun _ => hp

theorem isLeader_follows (env : Env) (t : Thread P) :
    (isLeader env t).Follows (electing t) Elects .out := by
  unfold isLeader
  split_ifs
  · refine ask_follows rfl fun _ => ask_follows rfl fun conn => ?_
    cases conn with
    | none => exact takeLock_follows t
    | some c =>
      refine ask_follows rfl fun alive => ?_
      cases alive with
      | true => exact ask_follows (.inr rfl) fun _ => rfl
      | false => exact closing_follows (takeLock_follows t)
  · rfl

theorem leaderOnly_follows (env : Env) (t : Thread P) :
    (leaderOnly env t).Follows (electing t) (fun φ _ => φ = .out) .out := by
  refine (isLeader_follows env t).bind fun φ leads hleads => ?_
  cases leads with
  | true =>
    obtain rfl : φ = .leading := hleads
    exact ask_follows rfl fun _ => ask_follows rfl fun _ => rfl
  | false => exact hleads

theorem release_follows (t : Thread P) :
    (release t).Follows (electing t) (fun φ _ => φ = .out) .out := by
  refine ask_follows rfl fun _ => ask_follows rfl fun conn => ?_
  cases conn with
  | none => exact ask_follows (.inl rfl) fun _ => rfl
  | some c => exact closing_follows (ask_follows (.inl rfl) fun _ => rfl)

theorem work_follows (env : Env) (t : Thread P) (calls : List Call) :
    (work env t calls).Follows (electing t) (fun φ _ => φ = .out) .out := by
  induction calls with
  | nil => rfl
  | cons call calls ih =>
    cases call with
    | leaderOnly =>
      refine (leaderOnly_follows env t).bind ?_
      rintro φ - rfl
      exact ih
    | release =>
      refine (release_follows t).bind ?_
      rintro φ - rfl
      exact ih

end Election

/-! ## The invariant -/

section Invariant

variable {P : Type}

/-- The session `c` was opened by `p` and has the lock until it is over. -/
structure Owns (s : Sessions P) (p : P) (c : ℕ) : Prop where
  client : s.clients[c]? = some p
  holds : s.Holds c

/-- What a phase says of the world. -/
def Fits (w : World P) (p : P) : Phase → Prop
  | .found c => w.leaderConn p = some c
  | .closing c => w.leaderConn p = some c ∧ c ∈ w.closed
  | .free => w.leaderConn p = none
  | .trying c | .refused c => w.leaderConn p = none ∧ w.sessions.clients[c]? = some p
  | .granted c => w.leaderConn p = none ∧ Owns w.sessions p c
  | _ => True

/-- The session with the lock is in use, or is closed by its client. -/
def Used (φ : Thread P → Phase) (w : World P) (c : ℕ) : Prop :=
  c ∈ w.closed ∨ ∃ p, w.sessions.clients[c]? = some p ∧
    (w.leaderConn p = some c ∨ ∃ t : Thread P, t.process = p ∧ (φ t).attempt = some c)

structure Inv (φ : Thread P → Phase) (w : World P) : Prop where
  locked : ∀ t, (φ t).isInside = true → w.locked t.process = true
  alone : ∀ t t', (φ t).isInside = true → (φ t').isInside = true → t.process = t'.process → t = t'
  fits : ∀ t, Fits w t.process (φ t)
  leaderConn : ∀ p c, w.leaderConn p = some c → Owns w.sessions p c
  relies : ∀ t c, w.relies t = some c → Owns w.sessions t.process c
  elected : ∀ t, (φ t).isElected = true → (w.relies t).isSome = true
  running : ∀ t, w.running t = true → φ t = .running
  used : ∀ c, w.sessions.holder = some c → Used φ w c

theorem inv_initial : Inv (fun _ : Thread P => .out) World.initial where
  locked _ h := by cases h
  alone _ _ h := by cases h
  fits _ := trivial
  leaderConn _ _ h := by cases h
  relies _ _ h := by cases h
  elected _ h := by cases h
  running _ h := by cases h
  used _ h := by cases h

variable {φ : Thread P → Phase} {w w' : World P} {t : Thread P} {φ' : Phase}

/-- Sessions are opened and end, and the lock is given: who has it keeps it. -/
structure Grows (w w' : World P) : Prop where
  client : ∀ (c : ℕ) (p : P), w.sessions.clients[c]? = some p → w'.sessions.clients[c]? = some p
  holds : ∀ c, w.sessions.Holds c → w'.sessions.Holds c
  closed : ∀ c ∈ w.closed, c ∈ w'.closed

theorem Grows.owns (h : Grows w w') {p : P} {c : ℕ} (hc : Owns w.sessions p c) : Owns w'.sessions p c :=
  ⟨h.client c p hc.client, h.holds c hc.holds⟩

theorem Grows.fits (h : Grows w w') {p : P} (hconn : w'.leaderConn p = w.leaderConn p)
    (hfits : Fits w p φ') : Fits w' p φ' := by
  cases φ' with
  | found c => exact hconn.trans hfits
  | closing c => exact ⟨hconn.trans hfits.1, h.closed c hfits.2⟩
  | free => exact hconn.trans hfits
  | trying c => exact ⟨hconn.trans hfits.1, h.client c p hfits.2⟩
  | refused c => exact ⟨hconn.trans hfits.1, h.client c p hfits.2⟩
  | granted c => exact ⟨hconn.trans hfits.1, h.owns hfits.2⟩
  | _ => trivial

theorem fits_of_not_inside {p : P} (h : ¬ φ'.isInside = true) : Fits w p φ' := by
  cases φ' with
  | out => trivial
  | leading => trivial
  | running => trivial
  | _ => exact absurd rfl h

theorem client_of_attempt {p : P} {c : ℕ} (h : Fits w p φ') (hc : φ'.attempt = some c) :
    w.sessions.clients[c]? = some p := by
  cases φ' with
  | trying d =>
    obtain rfl := Option.some.inj hc
    exact h.2
  | granted d =>
    obtain rfl := Option.some.inj hc
    exact h.2.client
  | refused d =>
    obtain rfl := Option.some.inj hc
    exact h.2
  | _ => cases hc

theorem Inv.expire (h : Inv φ w) (ended : List ℕ) : Inv φ (w.expire ended) := by
  have hgrows : Grows w (w.expire ended) :=
    ⟨fun _ _ hc => hc, fun _ hc => hc.expire ended, fun _ hc => hc⟩
  constructor
  · exact h.locked
  · exact h.alone
  · exact fun t => hgrows.fits rfl (h.fits t)
  · exact fun p c hc => hgrows.owns (h.leaderConn p c hc)
  · exact fun t c hc => hgrows.owns (h.relies t c hc)
  · exact h.elected
  · exact h.running
  · exact fun c hc => h.used c (Sessions.holder_expire.1 hc).1

/-- What a statement of the thread `t` leaves alone, and what it has to show. -/
structure Moves (φ : Thread P → Phase) (t : Thread P) (φ' : Phase) (w w' : World P) : Prop where
  grows : Grows w w'
  locked : ∀ p, p ≠ t.process → w'.locked p = w.locked p
  leaderConn : ∀ p, p ≠ t.process → w'.leaderConn p = w.leaderConn p
  relies : ∀ t', t' ≠ t → w'.relies t' = w.relies t'
  running : ∀ t', t' ≠ t → w'.running t' = w.running t'
  /-- Only a thread with `_lock` changes the connection and `_lock`, or the thread that takes it. -/
  alone : (φ t).isInside = true ∨ w.locked t.process = false ∨
    φ'.isInside = false ∧ w'.locked t.process = w.locked t.process
  still : (φ t).isInside = true ∨ w'.leaderConn t.process = w.leaderConn t.process
  inside : φ'.isInside = true → w'.locked t.process = true
  fits : Fits w' t.process φ'
  conn : ∀ c, w'.leaderConn t.process = some c → Owns w'.sessions t.process c
  relied : ∀ c, w'.relies t = some c → Owns w'.sessions t.process c
  elected : φ'.isElected = true → (w'.relies t).isSome = true
  runs : w'.running t = true → φ' = .running
  used : ∀ c, w'.sessions.holder = some c → w.sessions.holder = some c ∨ φ'.attempt = some c
  left : ∀ c, w.leaderConn t.process = some c ∨ (φ t).attempt = some c →
    c ∈ w'.closed ∨ w'.leaderConn t.process = some c ∨ φ'.attempt = some c

/-- A statement of a thread with `_lock`, which keeps it. -/
theorem Moves.of_inside (h : Inv φ w) (hin : (φ t).isInside = true)
    (hlocked : w'.locked = w.locked) (hrunning : w'.running = w.running) (grows : Grows w w')
    (leaderConn : ∀ p, p ≠ t.process → w'.leaderConn p = w.leaderConn p)
    (relies : ∀ t', t' ≠ t → w'.relies t' = w.relies t') (fits : Fits w' t.process φ')
    (conn : ∀ c, w'.leaderConn t.process = some c → Owns w'.sessions t.process c)
    (relied : ∀ c, w'.relies t = some c → Owns w'.sessions t.process c)
    (elected : φ'.isElected = true → (w'.relies t).isSome = true)
    (used : ∀ c, w'.sessions.holder = some c → w.sessions.holder = some c ∨ φ'.attempt = some c)
    (left : ∀ c, w.leaderConn t.process = some c ∨ (φ t).attempt = some c →
      c ∈ w'.closed ∨ w'.leaderConn t.process = some c ∨ φ'.attempt = some c) :
    Moves φ t φ' w w' where
  grows := grows
  locked p _ := by rw [hlocked]
  leaderConn := leaderConn
  relies := relies
  running t' _ := by rw [hrunning]
  alone := .inl hin
  still := .inl hin
  inside _ := by
    rw [hlocked]
    exact h.locked t hin
  fits := fits
  conn := conn
  relied := relied
  elected := elected
  runs hruns := by
    rw [hrunning] at hruns
    rw [h.running t hruns] at hin
    cases hin
  used := used
  left := left

theorem grows_of_eq (hsessions : w'.sessions = w.sessions) (hclosed : w'.closed = w.closed) :
    Grows w w' where
  client c p h := by rwa [hsessions]
  holds c h := by rwa [hsessions]
  closed c h := by rwa [hclosed]

variable [DecidableEq P]

/-- A statement keeps the invariant. -/
theorem Moves.inv (m : Moves φ t φ' w w') (h : Inv φ w) : Inv (Function.update φ t φ') w' := by
  have hself : Function.update φ t φ' t = φ' := Function.update_self ..
  have hother {t' : Thread P} (ht : t' ≠ t) : Function.update φ t φ' t' = φ t' :=
    Function.update_of_ne ht ..
  -- a thread of the same process with `_lock` is the one that moves
  have hin {t' : Thread P} (ht : t' ≠ t) (hp : t'.process = t.process)
      (hinside : (φ t').isInside = true) :
      φ'.isInside = false ∧ w'.locked t.process = w.locked t.process := by
    rcases m.alone with halone | hfree | hstay
    · exact absurd (h.alone t' t hinside halone hp) ht
    · have hlocked := h.locked t' hinside
      rw [hp, hfree] at hlocked
      cases hlocked
    · exact hstay
  constructor
  · intro t' hinside
    by_cases ht : t' = t
    · subst ht
      rw [hself] at hinside
      exact m.inside hinside
    · rw [hother ht] at hinside
      by_cases hp : t'.process = t.process
      · rw [hp, (hin ht hp hinside).2, ← hp]
        exact h.locked t' hinside
      · rw [m.locked _ hp]
        exact h.locked t' hinside
  · intro t₁ t₂ h₁ h₂ hp
    by_cases ht₁ : t₁ = t
    · by_cases ht₂ : t₂ = t
      · rw [ht₁, ht₂]
      · subst ht₁
        rw [hself] at h₁
        rw [hother ht₂] at h₂
        rw [(hin ht₂ hp.symm h₂).1] at h₁
        cases h₁
    · by_cases ht₂ : t₂ = t
      · subst ht₂
        rw [hself] at h₂
        rw [hother ht₁] at h₁
        rw [(hin ht₁ hp h₁).1] at h₂
        cases h₂
      · rw [hother ht₁] at h₁
        rw [hother ht₂] at h₂
        exact h.alone t₁ t₂ h₁ h₂ hp
  · intro t'
    by_cases ht : t' = t
    · subst ht
      rw [hself]
      exact m.fits
    · rw [hother ht]
      by_cases hinside : (φ t').isInside = true
      · refine m.grows.fits ?_ (h.fits t')
        by_cases hp : t'.process = t.process
        · rw [hp]
          refine m.still.resolve_left fun hmoves => ?_
          exact ht (h.alone t' t hinside hmoves hp)
        · exact m.leaderConn _ hp
      · exact fits_of_not_inside hinside
  · intro p c hc
    by_cases hp : p = t.process
    · subst hp
      exact m.conn c hc
    · rw [m.leaderConn p hp] at hc
      exact m.grows.owns (h.leaderConn p c hc)
  · intro t' c hc
    by_cases ht : t' = t
    · subst ht
      exact m.relied c hc
    · rw [m.relies t' ht] at hc
      exact m.grows.owns (h.relies t' c hc)
  · intro t' helected
    by_cases ht : t' = t
    · subst ht
      rw [hself] at helected
      exact m.elected helected
    · rw [hother ht] at helected
      rw [m.relies t' ht]
      exact h.elected t' helected
  · intro t' hruns
    by_cases ht : t' = t
    · subst ht
      rw [hself]
      exact m.runs hruns
    · rw [hother ht]
      rw [m.running t' ht] at hruns
      exact h.running t' hruns
  · intro c hc
    have hattempt (hc : φ'.attempt = some c) : Used (Function.update φ t φ') w' c :=
      .inr ⟨t.process, client_of_attempt m.fits hc, .inr ⟨t, rfl, by rw [hself, hc]⟩⟩
    have hleft (h : w.leaderConn t.process = some c ∨ (φ t).attempt = some c)
        (hclient : w.sessions.clients[c]? = some t.process) : Used (Function.update φ t φ') w' c := by
      rcases m.left c h with hclosed | hconn | hnew
      · exact .inl hclosed
      · exact .inr ⟨t.process, m.grows.client c _ hclient, .inl hconn⟩
      · exact hattempt hnew
    rcases m.used c hc with hold | hnew
    · rcases h.used c hold with hclosed | ⟨p, hclient, hconn | ⟨t', rfl, htries⟩⟩
      · exact .inl (m.grows.closed c hclosed)
      · by_cases hp : p = t.process
        · subst hp
          exact hleft (.inl hconn) hclient
        · exact .inr ⟨p, m.grows.client c p hclient, .inl ((m.leaderConn p hp).trans hconn)⟩
      · by_cases ht : t' = t
        · subst ht
          exact hleft (.inr htries) hclient
        · exact .inr ⟨_, m.grows.client c _ hclient, .inr ⟨t', rfl, by rw [hother ht, htries]⟩⟩
    · exact hattempt hnew

/-- The threads of other processes do not see what a process writes to its variables. -/
theorem update_of_ne {β : Type} {f : P → β} {b : β} {p q : P} (h : p ≠ q) :
    Function.update f q b p = f p := Function.update_of_ne h ..

/-! ### The statements -/

omit [DecidableEq P] in
theorem moves_refl (h : Inv φ w) (hin : (φ t).isInside = true) (helected : φ'.isElected = false)
    (hfits : Fits w t.process φ') (hattempt : (φ t).attempt = none) : Moves φ t φ' w w := by
  refine .of_inside h hin rfl rfl (grows_of_eq rfl rfl) (fun _ _ => rfl) (fun _ _ => rfl) hfits
    (h.leaderConn _) (h.relies t) (fun he => ?_) (fun _ hc => .inl hc) ?_
  · rw [helected] at he
    cases he
  · rintro c (hc | hc)
    · exact .inr (.inl hc)
    · rw [hattempt] at hc
      cases hc

omit [DecidableEq P] in
theorem moves_leaderConn (h : Inv φ w) (hφ : φ t = .inside) :
    Moves φ t (next (φ t) .leaderConn (w.leaderConn t.process)) w w := by
  have hin : (φ t).isInside = true := by rw [hφ]; rfl
  have hattempt : (φ t).attempt = none := by rw [hφ]; rfl
  rw [hφ]
  rcases hc : w.leaderConn t.process with _ | c
  · exact moves_refl h hin rfl hc hattempt
  · exact moves_refl h hin rfl hc hattempt

/-- The connection given up. -/
theorem moves_clear {c : ℕ} (h : Inv φ w) (hφ : φ t = .closing c) :
    Moves φ t .free w { w with leaderConn := Function.update w.leaderConn t.process none } := by
  have hfits := h.fits t
  rw [hφ] at hfits
  have hnone : Function.update w.leaderConn t.process none t.process = none :=
    Function.update_self ..
  refine .of_inside h (by rw [hφ]; rfl) rfl rfl (grows_of_eq rfl rfl) (fun _ hp => update_of_ne hp)
    (fun _ _ => rfl) hnone (fun d hd => ?_) (h.relies t) (fun he => by cases he)
    (fun _ hc => .inl hc) ?_
  · cases hnone.symm.trans hd
  · rintro d (hd | hd)
    · rw [hfits.1] at hd
      obtain rfl := Option.some.inj hd
      exact .inl hfits.2
    · rw [hφ] at hd
      cases hd

/-- The connection that has got the lock. -/
theorem moves_set {c : ℕ} (h : Inv φ w) (hφ : φ t = .granted c) :
    Moves φ t .won w { w with leaderConn := Function.update w.leaderConn t.process (some c) } := by
  have hfits := h.fits t
  have helected := h.elected t
  rw [hφ] at hfits helected
  have hsome : Function.update w.leaderConn t.process (some c) t.process = some c :=
    Function.update_self ..
  refine .of_inside h (by rw [hφ]; rfl) rfl rfl (grows_of_eq rfl rfl) (fun _ hp => update_of_ne hp)
    (fun _ _ => rfl) trivial (fun d hd => ?_) (h.relies t) (fun _ => helected rfl)
    (fun _ hc => .inl hc) ?_
  · obtain rfl := Option.some.inj (hsome.symm.trans hd)
    exact hfits.2
  · rintro d (hd | hd)
    · rw [hfits.1] at hd
      cases hd
    · rw [hφ] at hd
      obtain rfl := Option.some.inj hd
      exact .inr (.inl hsome)

omit [DecidableEq P] in
theorem grows_openFor (w : World P) (p : P) :
    Grows w { w with sessions := w.sessions.openFor p } where
  client _ _ h := Sessions.getElem?_openFor h
  holds _ h := h.openFor p
  closed _ h := h

omit [DecidableEq P] in
/-- A session that no thread has. -/
theorem moves_orphan (h : Inv φ w) (hφ : φ t = .free) :
    Moves φ t .free w { w with sessions := w.sessions.openFor t.process } := by
  have hfits := h.fits t
  rw [hφ] at hfits
  have hgrows := grows_openFor w t.process
  refine .of_inside h (by rw [hφ]; rfl) rfl rfl hgrows (fun _ _ => rfl) (fun _ _ => rfl) hfits
    (fun c hc => hgrows.owns (h.leaderConn _ c hc)) (fun c hc => hgrows.owns (h.relies t c hc))
    (fun he => by cases he) (fun _ hc => .inl hc) ?_
  rintro c (hc | hc)
  · exact .inr (.inl hc)
  · rw [hφ] at hc
    cases hc

omit [DecidableEq P] in
theorem moves_connect (h : Inv φ w) (hφ : φ t = .free) :
    Moves φ t (.trying w.sessions.clients.length) w
      { w with sessions := w.sessions.openFor t.process } := by
  have hfits := h.fits t
  rw [hφ] at hfits
  have hgrows := grows_openFor w t.process
  refine .of_inside h (by rw [hφ]; rfl) rfl rfl hgrows (fun _ _ => rfl) (fun _ _ => rfl)
    ⟨hfits, Sessions.getElem?_openFor_self t.process⟩
    (fun c hc => hgrows.owns (h.leaderConn _ c hc)) (fun c hc => hgrows.owns (h.relies t c hc))
    (fun he => by cases he) (fun _ hc => .inl hc) ?_
  rintro c (hc | hc)
  · exact .inr (.inl hc)
  · rw [hφ] at hc
    cases hc

/-- A check of the connection that finds it alive. -/
theorem moves_alive {c : ℕ} (h : Inv φ w) (hφ : φ t = .found c) :
    Moves φ t .won w { w with relies := Function.update w.relies t (some c) } := by
  have hfits := h.fits t
  rw [hφ] at hfits
  have hsome : Function.update w.relies t (some c) t = some c := Function.update_self ..
  refine .of_inside h (by rw [hφ]; rfl) rfl rfl (grows_of_eq rfl rfl) (fun _ _ => rfl)
    (fun _ ht => Function.update_of_ne ht ..) trivial (h.leaderConn _) (fun d hd => ?_)
    (fun _ => congrArg Option.isSome hsome) (fun _ hc => .inl hc) ?_
  · obtain rfl := Option.some.inj (hsome.symm.trans hd)
    exact h.leaderConn _ _ hfits
  · rintro d (hd | hd)
    · exact .inr (.inl hd)
    · rw [hφ] at hd
      cases hd

omit [DecidableEq P] in
theorem grows_tryLock {c : ℕ} {b : Bool} {sessions : Sessions P} {relies : Thread P → Option ℕ}
    (h : w.sessions.tryLock c = some (b, sessions)) :
    Grows w { w with sessions := sessions, relies := relies } where
  client d p hd := by rwa [(Sessions.tryLock_cases h).2.1]
  holds _ hd := hd.tryLock h
  closed _ h := h

omit [DecidableEq P] in
/-- The lock was held before, or the session that tries to take it has it. -/
theorem holder_of_tryLock {c d : ℕ} {b : Bool} {s s' : Sessions P} (h : s.tryLock c = some (b, s'))
    (hd : s'.holder = some d) : s.holder = some d ∨ some c = some d := by
  rw [(Sessions.tryLock_cases h).2.2.2.1] at hd
  rcases hs : s.holder with _ | e
  · rw [hs] at hd
    exact .inr hd
  · rw [hs] at hd
    exact .inl hd

theorem moves_granted {c : ℕ} {sessions : Sessions P} (h : Inv φ w) (hφ : φ t = .trying c)
    (hlock : w.sessions.tryLock c = some (true, sessions)) :
    Moves φ t (.granted c) w
      { w with sessions := sessions, relies := Function.update w.relies t (some c) } := by
  have hfits := h.fits t
  rw [hφ] at hfits
  have hgrows : Grows w
      { w with sessions := sessions, relies := Function.update w.relies t (some c) } :=
    grows_tryLock hlock
  have howns : Owns sessions t.process c := ⟨hgrows.client c _ hfits.2, .of_tryLock hlock⟩
  have hsome : Function.update w.relies t (some c) t = some c := Function.update_self ..
  refine .of_inside h (by rw [hφ]; rfl) rfl rfl hgrows (fun _ _ => rfl)
    (fun _ ht => Function.update_of_ne ht ..) ⟨hfits.1, howns⟩
    (fun d hd => hgrows.owns (h.leaderConn _ d hd)) (fun d hd => ?_)
    (fun _ => congrArg Option.isSome hsome)
    (fun d hd => holder_of_tryLock hlock hd) ?_
  · obtain rfl := Option.some.inj (hsome.symm.trans hd)
    exact howns
  · rintro d (hd | hd)
    · exact .inr (.inl hd)
    · rw [hφ] at hd
      exact .inr (.inr hd)

omit [DecidableEq P] in
/-- The lock is not given, or the answer is lost. -/
theorem moves_refused {c : ℕ} (h : Inv φ w) (hφ : φ t = .trying c) {sessions : Sessions P}
    (hgrows : Grows w { w with sessions := sessions })
    (hholder : ∀ d, sessions.holder = some d → w.sessions.holder = some d ∨ some c = some d) :
    Moves φ t (.refused c) w { w with sessions := sessions } := by
  have hfits := h.fits t
  rw [hφ] at hfits
  refine .of_inside h (by rw [hφ]; rfl) rfl rfl hgrows (fun _ _ => rfl) (fun _ _ => rfl)
    ⟨hfits.1, hgrows.client c _ hfits.2⟩ (fun d hd => hgrows.owns (h.leaderConn _ d hd))
    (fun d hd => hgrows.owns (h.relies t d hd)) (fun he => by cases he) hholder ?_
  rintro d (hd | hd)
  · exact .inr (.inl hd)
  · rw [hφ] at hd
    exact .inr (.inr hd)

omit [DecidableEq P] in
theorem moves_close {c : ℕ} (h : Inv φ w) (hφ : φ t = .found c ∨ φ t = .refused c) :
    Moves φ t (next (φ t) (.close c) ()) w { w with closed := c :: w.closed } := by
  have hgrows : Grows w { w with closed := c :: w.closed } :=
    ⟨fun _ _ h => h, fun _ h => h, fun _ h => List.mem_cons_of_mem c h⟩
  have hfits := h.fits t
  rcases hφ with hφ | hφ
  · rw [hφ] at hfits ⊢
    refine .of_inside h (by rw [hφ]; rfl) rfl rfl hgrows (fun _ _ => rfl) (fun _ _ => rfl)
      ⟨hfits, List.mem_cons_self⟩ (fun d hd => hgrows.owns (h.leaderConn _ d hd))
      (fun d hd => hgrows.owns (h.relies t d hd)) (fun he => by cases he) (fun _ hd => .inl hd) ?_
    rintro d (hd | hd)
    · exact .inr (.inl hd)
    · rw [hφ] at hd
      cases hd
  · rw [hφ] at hfits ⊢
    refine .of_inside h (by rw [hφ]; rfl) rfl rfl hgrows (fun _ _ => rfl) (fun _ _ => rfl)
      hfits.1 (fun d hd => hgrows.owns (h.leaderConn _ d hd))
      (fun d hd => hgrows.owns (h.relies t d hd)) (fun he => by cases he) (fun _ hd => .inl hd) ?_
    rintro d (hd | hd)
    · exact .inr (.inl hd)
    · rw [hφ] at hd
      obtain rfl := Option.some.inj hd
      exact .inl List.mem_cons_self

theorem moves_acquire (h : Inv φ w) (hφ : φ t = .out) (hfree : w.locked t.process = false) :
    Moves φ t .inside w { w with locked := Function.update w.locked t.process true } where
  grows := grows_of_eq rfl rfl
  locked _ hp := update_of_ne hp
  leaderConn _ _ := rfl
  relies _ _ := rfl
  running _ _ := rfl
  alone := .inr (.inl hfree)
  still := .inr rfl
  inside _ := Function.update_self ..
  fits := trivial
  conn := h.leaderConn _
  relied := h.relies t
  elected he := by cases he
  runs hruns := by
    rw [h.running t hruns] at hφ
    cases hφ
  used _ hc := .inl hc
  left c hc := by
    rcases hc with hc | hc
    · exact .inr (.inl hc)
    · rw [hφ] at hc
      cases hc

theorem moves_unlock (h : Inv φ w) (hφ : φ t = .free ∨ φ t = .won) :
    Moves φ t (next (φ t) .unlock ()) w
      { w with locked := Function.update w.locked t.process false } where
  grows := grows_of_eq rfl rfl
  locked _ hp := update_of_ne hp
  leaderConn _ _ := rfl
  relies _ _ := rfl
  running _ _ := rfl
  alone := .inl (by rcases hφ with hφ | hφ <;> rw [hφ] <;> rfl)
  still := .inr rfl
  inside hin := by rcases hφ with hφ | hφ <;> rw [hφ] at hin <;> cases hin
  fits := by rcases hφ with hφ | hφ <;> rw [hφ] <;> trivial
  conn := h.leaderConn _
  relied := h.relies t
  elected he := by
    have helected := h.elected t
    rcases hφ with hφ | hφ
    · rw [hφ] at he
      cases he
    · rw [hφ] at helected
      exact helected rfl
  runs hruns := by rcases hφ with hφ | hφ <;> rw [h.running t hruns] at hφ <;> cases hφ
  used _ hc := .inl hc
  left c hc := by
    rcases hc with hc | hc
    · exact .inr (.inl hc)
    · rcases hφ with hφ | hφ <;> rw [hφ] at hc <;> cases hc

theorem moves_jobBegins (h : Inv φ w) (hφ : φ t = .leading) :
    Moves φ t .running w { w with running := Function.update w.running t true } where
  grows := grows_of_eq rfl rfl
  locked _ _ := rfl
  leaderConn _ _ := rfl
  relies _ _ := rfl
  running _ ht := Function.update_of_ne ht ..
  alone := .inr (.inr ⟨rfl, rfl⟩)
  still := .inr rfl
  inside hin := by cases hin
  fits := trivial
  conn := h.leaderConn _
  relied := h.relies t
  elected _ := h.elected t (by rw [hφ]; rfl)
  runs _ := rfl
  used _ hc := .inl hc
  left c hc := by
    rcases hc with hc | hc
    · exact .inr (.inl hc)
    · rw [hφ] at hc
      cases hc

theorem moves_jobEnds (h : Inv φ w) (hφ : φ t = .running) :
    Moves φ t .out w { w with
      running := Function.update w.running t false
      relies := Function.update w.relies t none } where
  grows := grows_of_eq rfl rfl
  locked _ _ := rfl
  leaderConn _ _ := rfl
  relies _ ht := Function.update_of_ne ht ..
  running _ ht := Function.update_of_ne ht ..
  alone := .inr (.inr ⟨rfl, rfl⟩)
  still := .inr rfl
  inside hin := by cases hin
  fits := trivial
  conn := h.leaderConn _
  relied c hc := by
    have hnone : Function.update w.relies t none t = none := Function.update_self ..
    cases hnone.symm.trans hc
  elected he := by cases he
  runs hruns := by
    have hfalse : Function.update w.running t false t = false := Function.update_self ..
    cases hfalse.symm.trans hruns
  used _ hc := .inl hc
  left c hc := by
    rcases hc with hc | hc
    · exact .inr (.inl hc)
    · rw [hφ] at hc
      cases hc

/-- What a statement that the phase permits does. -/
theorem moves_of_act {o : Stmt} {fault : Fault} {r : o.Res} (h : Inv φ w) (ho : permits (φ t) o)
    (hact : actOf t w fault o = some (r, w')) : Moves φ t (next (φ t) o r) w w' := by
  cases o with
  | acquire =>
    rw [actOf] at hact
    split_ifs at hact with hfree
    obtain ⟨-, rfl⟩ := Prod.ext_iff.1 (Option.some.inj hact)
    exact moves_acquire h ho (Bool.eq_false_iff.2 hfree)
  | unlock =>
    obtain ⟨-, rfl⟩ := Prod.ext_iff.1 (Option.some.inj hact)
    exact moves_unlock h ho
  | leaderConn =>
    obtain ⟨rfl, rfl⟩ := Prod.ext_iff.1 (Option.some.inj hact)
    exact moves_leaderConn h ho
  | setLeaderConn conn =>
    obtain ⟨-, rfl⟩ := Prod.ext_iff.1 (Option.some.inj hact)
    cases conn with
    | none =>
      obtain ⟨c, hφ⟩ := ho
      exact moves_clear h hφ
    | some c => exact moves_set h ho
  | connect =>
    have hφ : φ t = .free := ho
    have hfits := h.fits t
    rw [hφ] at hfits
    cases fault with
    | none =>
      obtain ⟨rfl, rfl⟩ := Prod.ext_iff.1 (Option.some.inj hact)
      exact moves_connect h hφ
    | refused =>
      obtain ⟨rfl, rfl⟩ := Prod.ext_iff.1 (Option.some.inj hact)
      exact moves_refl h (by rw [hφ]; rfl) rfl hfits (by rw [hφ]; rfl)
    | lostReply =>
      obtain ⟨rfl, rfl⟩ := Prod.ext_iff.1 (Option.some.inj hact)
      exact moves_orphan h hφ
  | selectOne c =>
    have hφ : φ t = .found c := ho
    have hfits := h.fits t
    rw [hφ] at hfits
    rw [actOf] at hact
    split_ifs at hact
    · obtain ⟨rfl, rfl⟩ := Prod.ext_iff.1 (Option.some.inj hact)
      exact moves_alive h hφ
    · obtain ⟨rfl, rfl⟩ := Prod.ext_iff.1 (Option.some.inj hact)
      rw [hφ]
      exact moves_refl h (by rw [hφ]; rfl) rfl hfits (by rw [hφ]; rfl)
  | tryLock c =>
    have hφ : φ t = .trying c := ho
    have hsame : Moves φ t (.refused c) w w :=
      moves_refused h hφ (grows_of_eq rfl rfl) fun _ hd => .inl hd
    rcases hlock : w.sessions.tryLock c with _ | ⟨b, sessions⟩
    · have hnone : actOf t w fault (.tryLock c) = some (none, w) := by
        cases fault <;> simp only [actOf, hlock]
      obtain ⟨rfl, rfl⟩ := Prod.ext_iff.1 (Option.some.inj (hnone.symm.trans hact))
      exact hsame
    · have hrefused := moves_refused h hφ (grows_tryLock hlock) fun _ hd => holder_of_tryLock hlock hd
      cases fault with
      | refused =>
        obtain ⟨rfl, rfl⟩ := Prod.ext_iff.1 (Option.some.inj hact)
        exact hsame
      | lostReply =>
        simp only [actOf, hlock] at hact
        obtain ⟨rfl, rfl⟩ := Prod.ext_iff.1 (Option.some.inj hact)
        exact hrefused
      | none =>
        cases b with
        | true =>
          simp only [actOf, hlock] at hact
          obtain ⟨rfl, rfl⟩ := Prod.ext_iff.1 (Option.some.inj hact)
          exact moves_granted h hφ hlock
        | false =>
          simp only [actOf, hlock] at hact
          obtain ⟨rfl, rfl⟩ := Prod.ext_iff.1 (Option.some.inj hact)
          exact hrefused
  | close c =>
    obtain ⟨-, rfl⟩ := Prod.ext_iff.1 (Option.some.inj hact)
    exact moves_close h ho
  | jobBegins =>
    obtain ⟨-, rfl⟩ := Prod.ext_iff.1 (Option.some.inj hact)
    exact moves_jobBegins h ho
  | jobEnds =>
    obtain ⟨-, rfl⟩ := Prod.ext_iff.1 (Option.some.inj hact)
    exact moves_jobEnds h ho

/-- The invariant holds after every schedule. -/
theorem exists_inv {env : P → Env} {calls : Thread P → List Call} {es : List (Thread P × Choice)}
    {c : Pool (Statements P) (Thread P) (World P) Unit}
    (h : (processes env calls).run server es = some c) : ∃ φ, Inv φ c.state := by
  have hstep (φ : Thread P → Phase) (t : Thread P) (o : (Statements P).Op) (choice : Choice)
      (w : World P) (r : (Statements P).Res o) (w' : World P) (hinv : Inv φ w)
      (ho : (electing t).permits (φ t) o) (_ : True) (hact : server.act o choice w = some (r, w')) :
      ∃ φ', (electing t).next (φ t) o r = some φ' ∧ Inv (Function.update φ t φ') w' := by
    obtain ⟨rfl, ho⟩ := ho
    have hinv' := hinv.expire choice.ended
    exact ⟨_, rfl, (moves_of_act hinv' ho hact).inv hinv'⟩
  obtain ⟨φ, -, hinv⟩ := Pool.run_follows_each hstep h
    (Pool.along_of_prefixes (I := fun _ => True) (fun _ _ _ _ _ => trivial) fun _ _ _ _ => trivial)
    (fun t => work_follows (env t.process) t (calls t)) inv_initial
  exact ⟨φ, hinv⟩

end Invariant

/-! ## The election -/

section Results

variable {P : Type} [DecidableEq P] {env : P → Env} {calls : Thread P → List Call}
  {es : List (Thread P × Choice)} {c : Pool (Statements P) (Thread P) (World P) Unit}

/-- **A job runs in the process with the lock, or its session is over.** In every schedule, whatever
sessions end and whatever statements fail, each job that runs relies on a session of its process
that has the lock until it is over. Of two jobs at once in different processes, one has lost the
session that it relies on. -/
theorem running_holds (h : (processes env calls).run server es = some c) :
    (∀ t, c.state.running t = true → ∃ s, c.state.relies t = some s ∧
      c.state.sessions.clients[s]? = some t.process ∧
      (s ∈ c.state.sessions.live → c.state.sessions.holder = some s)) ∧
    ∀ t t', c.state.running t = true → c.state.running t' = true → t.process ≠ t'.process →
      ∃ s, (c.state.relies t = some s ∨ c.state.relies t' = some s) ∧ s ∉ c.state.sessions.live := by
  obtain ⟨φ, hinv⟩ := exists_inv h
  have hrelies (t : Thread P) (ht : c.state.running t = true) :
      ∃ s, c.state.relies t = some s ∧ Owns c.state.sessions t.process s := by
    obtain ⟨s, hs⟩ := Option.isSome_iff_exists.1 (hinv.elected t (by rw [hinv.running t ht]; rfl))
    exact ⟨s, hs, hinv.relies t s hs⟩
  constructor
  · intro t ht
    obtain ⟨s, hs, howns⟩ := hrelies t ht
    exact ⟨s, hs, howns.client, howns.holds.2⟩
  · intro t t' ht ht' hne
    obtain ⟨s, hs, howns⟩ := hrelies t ht
    obtain ⟨s', hs', howns'⟩ := hrelies t' ht'
    by_cases hlive : s ∈ c.state.sessions.live
    · refine ⟨s', .inr hs', fun hlive' => hne ?_⟩
      obtain rfl := howns.holds.eq_of_mem_live howns'.holds hlive hlive'
      exact Option.some.inj (howns.client.symm.trans howns'.client)
    · exact ⟨s, .inl hs, hlive⟩

/-- **The lock is not lost.** In every schedule, the session with the lock is the connection of a
process, or that process is at work on its election, or the session was closed and the server has not
noticed. -/
theorem held_by_leader (h : (processes env calls).run server es = some c) {s : ℕ}
    (hs : c.state.sessions.holder = some s) :
    s ∈ c.state.closed ∨ ∃ p, c.state.sessions.clients[s]? = some p ∧
      (c.state.leaderConn p = some s ∨ c.state.locked p = true) := by
  obtain ⟨φ, hinv⟩ := exists_inv h
  rcases hinv.used s hs with hclosed | ⟨p, hclient, hconn | ⟨t, rfl, hattempt⟩⟩
  · exact .inl hclosed
  · exact .inr ⟨p, hclient, .inl hconn⟩
  · refine .inr ⟨_, hclient, .inr (hinv.locked t ?_)⟩
    cases hφ : φ t with
    | trying c => rfl
    | granted c => rfl
    | refused c => rfl
    | _ =>
      rw [hφ] at hattempt
      cases hattempt

/-- No session ends and the statement is carried out. -/
def calm : Choice := ⟨[], .none⟩

theorem act_calm (t : Thread P) (o : Stmt) (w : World P) :
    server.act (t, o) calm w = actOf t w .none o := by
  have hexpire : w.expire [] = w := by
    rw [World.expire, Sessions.expire_nil]
  show actOf t (w.expire []) .none o = _
  rw [hexpire]

/-- A check that is not disturbed ends with this result. -/
def Decides (t : Thread P) (p : Prog (Statements P) Bool) (w : World P) (leads : Bool) : Prop :=
  ∃ es w', server.Runs p w es leads w' ∧ (∀ e ∈ es, e.2 = calm) ∧
    w'.locked t.process = false ∧
    if leads then ∃ s, w'.leaderConn t.process = some s ∧ w'.sessions.holder = some s
    else w'.leaderConn t.process = none

theorem Decides.ask {t : Thread P} {o : Stmt} {r : o.Res} {w w' : World P} {leads : Bool}
    {f : o.Res → Prog (Statements P) Bool} (hact : actOf t w .none o = some (r, w'))
    (h : Decides t (f r) w' leads) : Decides t (SchedulerLeader.ask t o >>= f) w leads := by
  obtain ⟨es, w'', hruns, hcalm, hend⟩ := h
  refine ⟨((t, o), calm) :: es, w'', .op ((act_calm t o w).trans hact) hruns, ?_, hend⟩
  rintro e (_ | ⟨_, he⟩)
  · rfl
  · exact hcalm e he

theorem takeLock_decides {t : Thread P} {w : World P} (hconn : w.leaderConn t.process = none) :
    Decides t (takeLock t) w (decide (w.sessions.holder = none)) := by
  have hlive : w.sessions.clients.length ∈ (w.sessions.openFor t.process).live :=
    List.mem_append_right _ (List.mem_singleton_self _)
  have hlock := Sessions.tryLock_of_mem hlive
  refine Decides.ask rfl ?_
  dsimp only
  rcases hholder : w.sessions.holder with _ | d
  · have hgot : (w.sessions.openFor t.process).holder.getD w.sessions.clients.length =
        w.sessions.clients.length := congrArg (Option.getD · _) hholder
    rw [hgot, decide_eq_true rfl] at hlock
    have hact : actOf t { w with sessions := w.sessions.openFor t.process } .none
        (.tryLock w.sessions.clients.length) = some (some true, { w with
          sessions := (w.sessions.openFor t.process).lock _ hlive
          relies := Function.update w.relies t (some w.sessions.clients.length) }) := by
      simp only [actOf, hlock]
    refine Decides.ask hact ?_
    rw [if_pos rfl]
    refine Decides.ask rfl (Decides.ask rfl ?_)
    refine ⟨[], _, .ret _ _, by simp, Function.update_self .., ?_⟩
    rw [if_pos (by simp)]
    refine ⟨_, Function.update_self .., ?_⟩
    exact congrArg some hgot
  · have hne : d ≠ w.sessions.clients.length :=
      Nat.ne_of_lt (w.sessions.live_lt d (w.sessions.holder_live d hholder))
    have hgot : (w.sessions.openFor t.process).holder.getD w.sessions.clients.length = d :=
      congrArg (Option.getD · _) hholder
    rw [hgot, decide_eq_false hne] at hlock
    have hact : actOf t { w with sessions := w.sessions.openFor t.process } .none
        (.tryLock w.sessions.clients.length) = some (some false, { w with
          sessions := (w.sessions.openFor t.process).lock _ hlive }) := by
      simp only [actOf, hlock]
    refine Decides.ask hact ?_
    rw [if_neg (by simp)]
    refine Decides.ask rfl (Decides.ask rfl ?_)
    refine ⟨[], _, .ret _ _, by simp, Function.update_self .., ?_⟩
    rw [if_neg (by simp)]
    exact hconn

/-- **Whom a check elects.** After every schedule, a check that is not disturbed says that its process
leads exactly if the lock is free or its connection has it; it ends with the connection that has the
lock, or with none. -/
theorem isLeader_undisturbed (h : (processes env calls).run server es = some c) {t : Thread P}
    {e : Env} (henabled : enabled e = true) (hlocked : c.state.locked t.process = false) :
    Decides t (isLeader e t) c.state (decide (c.state.sessions.holder = none ∨
      c.state.sessions.holder = c.state.leaderConn t.process)) := by
  obtain ⟨φ, hinv⟩ := exists_inv h
  generalize c.state = w at hinv hlocked
  have hacquire : actOf t w .none .acquire =
      some ((), { w with locked := Function.update w.locked t.process true }) :=
    if_neg (by simp [hlocked])
  unfold isLeader
  rw [if_pos henabled]
  refine Decides.ask hacquire (Decides.ask rfl ?_)
  dsimp only
  rcases hconn : w.leaderConn t.process with _ | s
  · have hfree : (w.sessions.holder = none ∨ w.sessions.holder = none) ↔ w.sessions.holder = none :=
      or_self_iff
    simp only [hfree]
    exact takeLock_decides hconn
  · have howns := hinv.leaderConn _ s hconn
    dsimp only
    by_cases hlive : s ∈ w.sessions.live
    · have hholder := howns.holds.2 hlive
      rw [decide_eq_true (.inr hholder)]
      refine Decides.ask (if_pos ⟨hlive, rfl⟩) ?_
      rw [if_pos rfl]
      refine Decides.ask rfl ?_
      refine ⟨[], _, .ret _ _, by simp, Function.update_self .., ?_⟩
      rw [if_pos rfl]
      exact ⟨s, hconn, hholder⟩
    · have hholder : w.sessions.holder ≠ some s := fun hs => hlive (w.sessions.holder_live s hs)
      refine Decides.ask (if_neg fun hand => hlive hand.1) ?_
      rw [if_neg Bool.false_ne_true]
      refine Decides.ask rfl (Decides.ask rfl ?_)
      simp only [hholder, or_false]
      exact takeLock_decides (Function.update_self ..)

end Results

/-! ## Two processes -/

namespace Sample

def env : Env where
  lower s := s
  SCHEDULER_ENABLED := none

/-- The first thread of a process. -/
def thread (p : Bool) : Thread Bool := ⟨p, 0⟩

def pool : Pool (Statements Bool) (Thread Bool) (World Bool) Unit :=
  processes (fun _ => env) fun _ => [.leaderOnly, .leaderOnly]

/-- One process is elected and begins its job. -/
def election : List (Thread Bool × Choice) := List.replicate 7 (thread true, calm)

/-- The session of its connection ends, and the other process is elected. -/
def takeover : List (Thread Bool × Choice) :=
  election ++ (thread false, ⟨[0], .none⟩) :: List.replicate 6 (thread false, calm)

theorem takeover_overlaps : ∃ c, pool.run server takeover = some c ∧
    c.state.running (thread true) = true ∧ c.state.running (thread false) = true ∧
    ∃ s, (c.state.relies (thread true) = some s ∨ c.state.relies (thread false) = some s) ∧
      s ∉ c.state.sessions.live := by
  obtain ⟨c, hrun, hboth⟩ := Pool.exists_run_of_reaches (M := server) pool takeover
    (fun c => c.state.running (thread true) && c.state.running (thread false)) (by decide +kernel)
  obtain ⟨htrue, hfalse⟩ := Bool.and_eq_true_iff.1 hboth
  exact ⟨c, hrun, htrue, hfalse, (running_holds hrun).2 _ _ htrue hfalse (by decide)⟩

theorem election_held : ∃ c, pool.run server election = some c ∧
    (0 ∈ c.state.closed ∨ ∃ p, c.state.sessions.clients[0]? = some p ∧
      (c.state.leaderConn p = some 0 ∨ c.state.locked p = true)) := by
  obtain ⟨c, hrun, hholder⟩ := Pool.exists_run_of_reaches (M := server) pool election
    (fun c => decide (c.state.sessions.holder = some 0)) (by decide +kernel)
  exact ⟨c, hrun, held_by_leader hrun (of_decide_eq_true hholder)⟩

/-- The other process is not elected while the first holds the lock. -/
theorem election_decides : ∃ c, pool.run server election = some c ∧
    Decides (thread false) (isLeader env (thread false)) c.state false := by
  obtain ⟨c, hrun, htest⟩ := Pool.exists_run_of_reaches (M := server) pool election
    (fun c => decide (c.state.locked false = false ∧ ¬ (c.state.sessions.holder = none ∨
      c.state.sessions.holder = c.state.leaderConn (thread false).process))) (by decide +kernel)
  obtain ⟨hlocked, hheld⟩ := of_decide_eq_true htest
  have henabled : enabled env = true := by decide +kernel
  have hdecides := isLeader_undisturbed hrun henabled (t := thread false) hlocked
  rw [decide_eq_false hheld] at hdecides
  exact ⟨c, hrun, hdecides⟩

end Sample

end RagLeap.SchedulerLeader
