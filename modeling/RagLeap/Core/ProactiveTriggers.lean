import Mathlib.Algebra.Order.Floor.Ring
import Mathlib.Data.Rat.Floor
import Mathlib.Tactic.Linarith
import RagLeap.Foundations.Dict
import RagLeap.Foundations.Pool
import RagLeap.Foundations.Text

/-!
# Proactive triggers

`core/proactive_triggers.py`: every worker reads the triggers that are due and claims each one by an
UPDATE that puts `next_run_at` forward, before it runs the trigger's prompt. The next run of a cron
trigger is computed by the worker before the UPDATE is sent, that of an interval trigger by the
UPDATE itself. Times are rationals; every statement reads the database's clock for itself, and the
readings need not be in order.

`claimed_once_of_timely` is the law for the schedules in which no UPDATE arrives after the next run
it carries.
-/

namespace RagLeap.ProactiveTriggers

def MIN_SCHEDULE_MINUTES : ℕ := 5
def MAX_CRON_LEN : ℕ := 100

/-! ## Next runs -/

/-- The library functions the schedules rely on: `str.isalpha` and `str.isdigit`, `int` of a text,
the time zones that are known, and the next fire time of a crontab expression in a time zone from a
point in time on, if the expression is one and ever fires. -/
structure Env where
  isAlpha : Char → Bool
  isDigit : Str → Bool
  int : Str → Option ℕ
  knowsZone : Str → Bool
  nextFireTime : Str → Str → ℚ → Option ℚ

def DAYS : List Str := ["sun", "mon", "tue", "wed", "thu", "fri", "sat"].map String.toList

/-- The names of the weekdays from `a` to `b` after the ones found so far. -/
def addWeekdays (names : List Str) (a b : ℕ) : List Str :=
  (List.range' a (b + 1 - a)).foldl
    (fun names n =>
      let name := DAYS.getD (n % 7) []
      if name ∈ names then names else names ++ [name])
    names

/-- One part of a list of weekdays; `none`: the expression is refused. -/
def normalisePart (env : Env) (names : List Str) (part : Str) : Option (List Str) :=
  if part = [] ∨ '/' ∈ part then none
  else
    let (a, b) := if '-' ∈ part then
        (part.takeWhile (· ≠ '-'), (part.dropWhile (· ≠ '-')).tail)
      else (part, part)
    if env.isDigit a && env.isDigit b then
      match env.int a, env.int b with
      | some a, some b => if a ≤ 7 ∧ b ≤ 7 ∧ a ≤ b then some (addWeekdays names a b) else none
      | _, _ => none
    else none

def normaliseWeekday (env : Env) (field : Str) : Option Str :=
  if field = "*".toList ∨ field.any env.isAlpha then some field
  else ((field.splitOn ',').foldlM (normalisePart env) []).map [','].intercalate

def normaliseCron (env : Env) (expr : Str) : Option Str :=
  match Str.words expr with
  | [minute, hour, day, month, weekday] =>
    if expr.length > MAX_CRON_LEN then none
    else (normaliseWeekday env weekday).map fun weekday =>
      [' '].intercalate [minute, hour, day, month, weekday]
  | _ => none

/-- `_tz`: the name of the time zone, if it is known. -/
def zone (env : Env) (tzName : Str) : Option Str :=
  let stripped := Str.strip (if tzName = [] then "UTC".toList else tzName)
  let name := if stripped = [] then "UTC".toList else stripped
  if env.knowsZone name then some name else none

/-- `none`: it raises. -/
def nextCronRun (env : Env) (expr tzName : Str) (after : ℚ) : Option ℚ := do
  let normalised ← normaliseCron env expr
  let tz ← zone env tzName
  env.nextFireTime normalised tz after

/-! ## The table -/

/-- The schedule of a trigger: the table holds either a number of minutes or a cron expression. -/
inductive Schedule
  | minutes (n : ℕ) (h : MIN_SCHEDULE_MINUTES ≤ n)
  | cron (expr timezone : Str) (h : expr ≠ [])

/-- A row of `proactive_triggers` under its id. -/
structure Trigger where
  name : Str
  role : Str
  prompt : Str
  schedule : Schedule
  isActive : Bool
  lastRunAt : Option ℚ
  nextRunAt : ℚ

/-- A claim: the occurrence claimed, the time of the UPDATE and the next run it stored. -/
structure Claim where
  trigger : Str
  occurrence : ℚ
  time : ℚ
  next : ℚ

/-- The table, and the record of the claims that took effect. -/
structure Table where
  rows : Dict Str Trigger
  claims : List Claim

/-- The row claimed at `now`, its next run put to `next`. -/
def Table.claim (t : Table) (id : Str) (row : Trigger) (now next : ℚ) : Table where
  rows := t.rows.set id { row with lastRunAt := some now, nextRunAt := next }
  claims := t.claims ++ [⟨id, row.nextRunAt, now, next⟩]

def Trigger.Due (row : Trigger) (now : ℚ) : Prop := row.isActive = true ∧ row.nextRunAt ≤ now

instance (row : Trigger) (now : ℚ) : Decidable (row.Due now) := inferInstanceAs (Decidable (_ ∧ _))

/-! ## Statements -/

inductive Stmt
  | selectDue
  /-- `datetime.now(utc)`. -/
  | clock
  /-- The UPDATE of a cron trigger, with its next run. -/
  | claimCron (id : Str) (next : ℚ)
  /-- The UPDATE of an interval trigger. -/
  | claimInterval (id : Str)
  | ask (prompt role : Str)
  | executeOrRequest (content role : Str)

/-- `none` in an `Option` answer: the statement raises. -/
abbrev Stmt.Res : Stmt → Type
  | selectDue => Option (List (Str × Trigger))
  | clock => ℚ
  | claimCron .. => Option Bool
  | claimInterval _ => Option Bool
  | ask .. => Option Str
  | executeOrRequest .. => Option Str

abbrev Statements : Signature := ⟨Stmt, Stmt.Res⟩

abbrev exec (o : Stmt) : Proc Statements o.Res := Proc.call (S := Statements) o

/-- Whether a database statement goes through: it may be refused, or take effect while the client
sees an exception. -/
inductive Fault
  | none | refused | lostReply
  deriving DecidableEq

/-- What the program does not control about one statement. -/
structure Choice where
  fault : Fault
  /-- The database's clock for the statement. -/
  now : ℚ
  /-- The answer of a statement the table does not decide. -/
  reply : (o : Stmt) → o.Res

/-- An UPDATE that claims the row of `id`, with the next run of the row at the time of the UPDATE;
`none`: it violates a constraint of the table. -/
def update (id : Str) (next : Trigger → Option ℚ) (w : Choice) (t : Table) : Option Bool × Table :=
  let result : Option Bool × Table :=
    match t.rows.get? id with
    | none => (some false, t)
    | some row =>
      if row.Due w.now then
        match next row with
        | some next => (some true, t.claim id row w.now next)
        | none => (none, t)
      else (some false, t)
  match w.fault with
  | .none => result
  | .refused => (none, t)
  | .lostReply => (none, result.2)

def act : (o : Stmt) → Choice → Table → Option (o.Res × Table)
  | .selectDue, w, t =>
    some (if w.fault = .none then
      some ((t.rows.items.filter fun e => e.2.Due w.now).mergeSort
        fun e e' => e.2.nextRunAt ≤ e'.2.nextRunAt) else none, t)
  | .claimCron id next, w, t => some (update id (fun _ => some next) w t)
  | .claimInterval id, w, t =>
    some (update id (fun row => match row.schedule with
      | .minutes n _ => some (w.now + 60 * n)
      | .cron .. => none) w t)
  | o, w, t => some (w.reply o, t)

def table : Machine Statements Table Choice := ⟨act⟩

/-! ## The workers -/

/-- The claim of a trigger; it raises if the UPDATE does. -/
def claim (env : Env) (id : Str) (trigger : Trigger) : Proc Statements Bool := do
  let won ← match trigger.schedule with
    | .cron expr timezone _ => do
      let after ← exec .clock
      match nextCronRun env expr timezone after with
      | some next => exec (.claimCron id next)
      | none => do
        let now ← exec .clock
        exec (.claimCron id (now + 24 * 60 * 60))
    | .minutes .. => exec (.claimInterval id)
  match won with
  | some won => pure won
  | none => Proc.throw

/-- What `run_trigger` returns. -/
inductive RunResult
  | skipped (result : Str)
  | gate (reply : Str)
  | error

def runClaimed (env : Env) (id : Str) (trigger : Trigger) : Proc Statements RunResult := do
  if ¬ (← claim env id trigger) then
    pure (.skipped "already claimed or no longer due".toList)
  else
    match ← exec (.ask trigger.prompt trigger.role) with
    | none => Proc.throw
    | some answer =>
      if Str.strip answer = [] then pure (.skipped "empty answer".toList)
      else
        match ← exec (.executeOrRequest
            ('[' :: trigger.name ++ "] ".toList ++ Str.strip answer) trigger.role) with
        | none => Proc.throw
        | some reply => pure (.gate reply)

def runTrigger (env : Env) (id : Str) (trigger : Trigger) : Proc Statements RunResult := do
  match ← Proc.attempt (runClaimed env id trigger) with
  | some result => pure result
  | none => pure .error

/-- The loop over the triggers that are due. -/
def runEach (env : Env) : List (Str × Trigger) → Proc Statements Unit
  | [] => pure ()
  | (id, trigger) :: due => do
    let _ ← runTrigger env id trigger
    runEach env due

def runDueTriggers (env : Env) : Proc Statements ℕ := do
  match ← exec .selectDue with
  | none => pure 0
  | some due => do
    runEach env due
    pure due.length

/-- A worker whose scheduler calls it `n` times. -/
def worker (env : Env) : ℕ → Proc Statements Unit
  | 0 => pure ()
  | n + 1 => do
    let _ ← runDueTriggers env
    worker env n

/-! ## Claims -/

/-- No occurrence of a trigger was claimed twice, and the next run stored for a trigger is later than
every claim of it. -/
structure Table.ClaimedOnce (t : Table) : Prop where
  once : (t.claims.map fun c => (c.trigger, c.occurrence)).Nodup
  later : ∀ c ∈ t.claims, ∀ row, t.rows.get? c.trigger = some row → c.time < row.nextRunAt

/-- What the claims keep: an occurrence is not claimed before its time. -/
structure Table.Ordered (t : Table) : Prop extends t.ClaimedOnce where
  past : ∀ c ∈ t.claims, c.occurrence ≤ c.time

/-- An UPDATE that claims a cron trigger arrives before the next run it carries. -/
def Timely {ι : Type} : ι → Stmt → Choice → Table → Prop
  | _, .claimCron id next, w, t =>
    ∀ row, t.rows.get? id = some row → row.Due w.now → w.fault ≠ .refused → w.now < next
  | _, _, _, _ => True

/-- What an UPDATE can do: nothing, or claim a row that is due. -/
theorem update_cases (id : Str) (next : Trigger → Option ℚ) (w : Choice) (t : Table) :
    (update id next w t).2 = t ∨ ∃ row n, t.rows.get? id = some row ∧ row.Due w.now ∧
      w.fault ≠ .refused ∧ next row = some n ∧ (update id next w t).2 = t.claim id row w.now n := by
  unfold update
  cases hrow : t.rows.get? id with
  | none => cases w.fault <;> exact .inl rfl
  | some row =>
    dsimp only
    by_cases hdue : row.Due w.now
    · rw [if_pos hdue]
      cases hnext : next row with
      | none => cases w.fault <;> exact .inl rfl
      | some n =>
        cases hf : w.fault with
        | refused => exact .inl rfl
        | none => exact .inr ⟨row, n, rfl, hdue, nofun, hnext, rfl⟩
        | lostReply => exact .inr ⟨row, n, rfl, hdue, nofun, hnext, rfl⟩
    · rw [if_neg hdue]
      cases w.fault <;> exact .inl rfl

/-- A claim that puts the next run behind its own time. -/
theorem Table.Ordered.claim {t : Table} (ht : t.Ordered) {id : Str} {row : Trigger} {now next : ℚ}
    (hrow : t.rows.get? id = some row) (hdue : row.Due now) (hnext : now < next) :
    (t.claim id row now next).Ordered := by
  have hrows : ∀ id', (t.claim id row now next).rows.get? id' =
      if id' = id then some { row with lastRunAt := some now, nextRunAt := next }
      else t.rows.get? id' := fun id' => Dict.get?_set _ _ _ _
  refine ⟨⟨?_, ?_⟩, ?_⟩
  · -- an earlier claim of the trigger was made before the run that is due now
    simp only [Table.claim, List.map_append, List.map_singleton]
    rw [List.nodup_append]
    refine ⟨ht.once, List.nodup_singleton _, ?_⟩
    rintro _ hold _ hnew rfl
    rw [List.mem_singleton] at hnew
    obtain ⟨c, hc, heq⟩ := List.mem_map.1 hold
    obtain ⟨hid, hocc⟩ := Prod.mk.injEq .. ▸ heq.trans hnew
    have hlater := ht.later c hc row (hid ▸ hrow)
    have hpast := ht.past c hc
    rw [hocc] at hpast
    exact absurd hlater (not_lt.2 hpast)
  · intro c hc row' hrow'
    rw [hrows] at hrow'
    rcases List.mem_append.1 hc with hc | hc
    · split at hrow'
      · rename_i hid
        cases hrow'
        have hlater := ht.later c hc row (hid ▸ hrow)
        exact (hlater.trans_le hdue.2).trans hnext
      · exact ht.later c hc row' hrow'
    · rw [List.mem_singleton] at hc
      subst hc
      rw [if_pos rfl] at hrow'
      cases hrow'
      exact hnext
  · intro c hc
    rcases List.mem_append.1 hc with hc | hc
    · exact ht.past c hc
    · rw [List.mem_singleton] at hc
      subst hc
      exact hdue.2

theorem update_ordered {id : Str} {next : Trigger → Option ℚ} {w : Choice} {t : Table}
    (ht : t.Ordered)
    (hnext : ∀ row n, t.rows.get? id = some row → row.Due w.now → w.fault ≠ .refused →
      next row = some n → w.now < n) : (update id next w t).2.Ordered := by
  rcases update_cases id next w t with h | ⟨row, n, hrow, hdue, hf, hn, h⟩
  · rwa [h]
  · rw [h]
    exact ht.claim hrow hdue (hnext row n hrow hdue hf hn)

/-- Every timely statement keeps the claims in order. -/
theorem act_ordered {ι : Type} {i : ι} {o : Stmt} {w : Choice} {t t' : Table} {r : o.Res}
    (ht : t.Ordered) (htimely : Timely i o w t) (h : act o w t = some (r, t')) : t'.Ordered := by
  cases o with
  | claimCron id next =>
    have ht' : _ = t' := congrArg Prod.snd (Option.some.inj h)
    rw [← ht']
    refine update_ordered ht fun row n hrow hdue hf hn => ?_
    cases hn
    exact htimely row hrow hdue hf
  | claimInterval id =>
    have ht' : _ = t' := congrArg Prod.snd (Option.some.inj h)
    rw [← ht']
    refine update_ordered ht fun row n _ _ _ hn => ?_
    split at hn
    · rename_i minutes hmin _
      cases hn
      have hpos : 0 < minutes := lt_of_lt_of_le (by decide) hmin
      have : (0 : ℚ) < minutes := by exact_mod_cast hpos
      linarith
    · cases hn
  | _ =>
    cases h
    exact ht

/-- Any number of workers at work on a table. -/
def workers {ι : Type} (env : Env) (ticks : ι → ℕ) (t : Table) : Pool Statements ι Table (Option Unit) :=
  ⟨fun i => (worker env (ticks i)).run, t⟩

/-- In a schedule in which no UPDATE arrives late the claims are in order. -/
theorem ordered_of_timely {ι : Type} [DecidableEq ι] {env : Env} {ticks : ι → ℕ} {t : Table}
    (ht : t.Ordered) {es : List (ι × Choice)} {c : Pool Statements ι Table (Option Unit)}
    (hrun : (workers env ticks t).run table es = some c)
    (htimely : (workers env ticks t).Along table Timely es) : c.state.Ordered := by
  have hprogram (i : ι) : (worker env (ticks i)).run.Only fun _ => True := by
    generalize (worker env (ticks i)).run = p
    induction p with
    | ret a => trivial
    | op o k ih => exact (Prog.Only.op_iff _ _).2 ⟨trivial, fun r => ih r⟩
  obtain ⟨-, -, hordered⟩ := Pool.run_follows (P := Protocol.only fun _ => True)
    (I := fun _ t => t.Ordered)
    (fun _ i _ _ _ _ _ ht _ hg hact => ⟨(), rfl, act_ordered (i := i) ht hg hact⟩)
    hrun htimely hprogram ht
  exact hordered

/-- An UPDATE that claims a row and arrives late leaves a next run that is not later than the
claim. -/
theorem timely_of_claimedOnce {ι : Type} (i : ι) (o : Stmt) (w : Choice) (t : Table)
    (h : ∀ r t', act o w t = some (r, t') → t'.ClaimedOnce) : Timely i o w t := by
  cases o with
  | claimCron id next =>
    intro row hrow hdue hf
    have hclaim : (update id (fun _ => some next) w t).2 = t.claim id row w.now next := by
      unfold update
      rw [hrow]
      dsimp only
      rw [if_pos hdue]
      cases hw : w.fault with
      | refused => exact absurd hw hf
      | none => rfl
      | lostReply => rfl
    have honce : (update id (fun _ => some next) w t).2.ClaimedOnce := h _ _ rfl
    rw [hclaim] at honce
    exact honce.later ⟨id, row.nextRunAt, w.now, next⟩
      (List.mem_append_right _ (List.mem_singleton_self _)) _
      ((Dict.get?_set _ _ _ _).trans (if_pos rfl))
  | _ => trivial

/-- **When a scheduled occurrence is claimed at most once.** With any number of workers and any
schedule, in every table on the way no occurrence was claimed twice and the next run of a trigger is
later than its claims, exactly if no UPDATE that claims a row arrives after the next run it
carries. -/
theorem claimed_once_iff_timely {ι : Type} [DecidableEq ι] (env : Env) (ticks : ι → ℕ) {t : Table}
    (ht : t.claims = []) (es : List (ι × Choice)) :
    (∀ es₁ c, es₁ <+: es → (workers env ticks t).run table es₁ = some c → c.state.ClaimedOnce) ↔
      (workers env ticks t).Along table Timely es := by
  constructor
  · exact Pool.along_of_prefixes timely_of_claimedOnce
  · intro htimely es₁ c hes hrun
    have hstart : t.Ordered := by
      refine ⟨⟨?_, ?_⟩, ?_⟩ <;> simp [ht]
    exact (ordered_of_timely hstart hrun (htimely.of_prefix hes)).toClaimedOnce

/-- A library that reads `*/5 * * * *` as every five minutes, in UTC. -/
def everyFive : Env where
  isAlpha c := c.isAlpha
  isDigit s := s ≠ [] ∧ s.all Char.isDigit
  int s := (String.ofList s).toNat?
  knowsZone z := z = "UTC".toList
  nextFireTime _ _ after := some (⌈after / 300⌉ * 300)

/-- A cron trigger that is due since time 0. -/
def dueTable : Table where
  rows := Dict.empty.set "t1".toList
    { name := "Prices".toList, role := "analyst".toList, prompt := "Check the prices.".toList
      schedule := .cron "*/5 * * * *".toList "UTC".toList (by decide)
      isActive := true, lastRunAt := none, nextRunAt := 0 }
  claims := []

/-- A statement at time `now`, by the database's clock and the worker's. -/
def timed (now : ℚ) : Choice where
  fault := .none
  now := now
  reply
    | .selectDue => none
    | .clock => now
    | .claimCron .. => none
    | .claimInterval _ => none
    | .ask .. => some "Up.".toList
    | .executeOrRequest .. => none

/-- A test of `Timely`. -/
def timely {ι : Type} (_ : ι) (o : Stmt) (w : Choice) (t : Table) : Bool :=
  match o with
  | .claimCron id next => (t.rows.get? id).all fun row =>
      decide (row.Due w.now → w.fault ≠ .refused → w.now < next)
  | _ => true

theorem timely_of_test {ι : Type} {i : ι} {o : Stmt} {w : Choice} {t : Table}
    (h : timely i o w t = true) : Timely i o w t := by
  cases o with
  | claimCron id next =>
    intro row hrow
    simp only [timely, hrow, Option.all_some] at h
    exact of_decide_eq_true h
  | _ => trivial

/-- Two workers read the trigger at once and one claims it; the other's UPDATE comes second. -/
def inTime : List (Bool × Choice) :=
  [(true, timed 10), (false, timed 10), (true, timed 11), (false, timed 11), (true, timed 12),
    (false, timed 20)]

/-- The other's UPDATE comes after the next run it carries, and a third reading claims once more. -/
def tooLate : List (Bool × Choice) :=
  [(true, timed 10), (false, timed 10), (true, timed 11), (false, timed 11), (true, timed 12),
    (false, timed 301), (true, timed 302), (true, timed 302), (true, timed 303), (true, timed 303),
    (true, timed 304)]

theorem claimed_once_in_time :
    ∃ c, (workers everyFive (fun _ : Bool => 2) dueTable).run table inTime = some c ∧
      c.state.claims.length = 1 ∧ c.state.ClaimedOnce := by
  obtain ⟨c, hrun, hlength⟩ := Pool.exists_run_of_reaches (M := table)
    (workers everyFive (fun _ : Bool => 2) dueTable) inTime
    (fun c => decide (c.state.claims.length = 1)) (by decide +kernel)
  have htimely : (workers everyFive (fun _ : Bool => 2) dueTable).Along table Timely inTime :=
    Pool.along_of_check timely (fun _ _ _ _ => timely_of_test) (by decide +kernel)
  exact ⟨c, hrun, of_decide_eq_true hlength,
    (claimed_once_iff_timely everyFive (fun _ : Bool => 2) rfl inTime).2 htimely inTime c
      (List.prefix_refl _) hrun⟩

/-- The occurrence at time 300 is claimed twice. -/
theorem late_claim_repeats :
    ∃ c, (workers everyFive (fun _ : Bool => 2) dueTable).run table tooLate = some c ∧
      ¬ c.state.ClaimedOnce := by
  obtain ⟨c, hrun, htwice⟩ := Pool.exists_run_of_reaches (M := table)
    (workers everyFive (fun _ : Bool => 2) dueTable) tooLate
    (fun c => decide ¬ (c.state.claims.map fun c : Claim => (c.trigger, c.occurrence)).Nodup)
    (by decide +kernel)
  exact ⟨c, hrun, fun h => of_decide_eq_true htwice h.once⟩

end RagLeap.ProactiveTriggers
