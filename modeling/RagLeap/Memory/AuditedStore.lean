import RagLeap.Foundations.Steps
import RagLeap.Memory.Store

/-!
# The store and its audit log

`SQLiteStore` with a connection that can fail: a write runs statement by statement in a transaction
of the wrapper `_tx`, writes its record to the audit log as the last thing before the `COMMIT`, and
`erase` compacts the index after it. Each of these points may raise (`Faults`); a `COMMIT` that
raises leaves the transaction open.

`upheld_iff` says in which runs the store and the log agree after every operation, and
`replay_of_each` that the store then holds what the recorded operations make.
-/

namespace RagLeap.Memory.Audited

open Security Steps

/-! ## Failing statements -/

/-- How the append to the audit log went. One that raises, as in `fsync`, may have written its
record. -/
inductive AuditFate
  | recorded
  | raises (written : Bool)
  deriving DecidableEq

/-- What raises during an operation: `BEGIN`, a statement of the transaction by its place, the
append to the audit log, the `COMMIT`, a statement of `compact`. -/
structure Faults where
  begins : Bool
  statement : ℕ → Bool
  audit : AuditFate
  commit : Bool
  compact : Bool

/-- What an operation meets outside: the clock, the new identifier, and what raises. -/
structure Turn where
  now : ℤ
  uuid4 : Str
  faults : Faults

/-- The clock and the identifier, with the record written. -/
def Turn.world (turn : Turn) : World := ⟨turn.now, turn.uuid4, true⟩

/-- The exception an operation raises: one of its own refusals, or one that came from a statement
or from the audit log. -/
inductive Failure
  | refused (e : Error)
  | raised
  deriving DecidableEq

/-- Statements of an open transaction, over its table and the number of statements so far. -/
abbrev Sql (α : Type) : Type := StateT (Memories × ℕ) (Except Failure) α

/-- A statement, unless it raises. -/
def statement {α : Type} (faults : Faults) (st : Memories → Except Error (α × Memories)) :
    Sql α := fun s =>
  if faults.statement s.2 then .error .raised
  else
    match st s.1 with
    | .error e => .error (.refused e)
    | .ok (a, m) => .ok (a, m, s.2 + 1)

/-- A check between statements. -/
def check {α : Type} (x : Except Error α) : Sql α := fun s =>
  match x with
  | .error e => .error (.refused e)
  | .ok a => .ok (a, s)

/-- An entry of the audit log. -/
structure AuditRecord where
  event : String
  scope : Scope
  data : List (String × Json)

/-- A connection: the committed table, the table of the transaction that is open (if one is), and
the audit log (if the store has one). -/
structure Session where
  committed : Memories
  openTx : Option Memories
  log : Option (List AuditRecord)

/-- The table a read of this connection sees. -/
def Session.view (s : Session) : Memories := s.openTx.getD s.committed

/-- A store just opened. -/
def Session.opened (m : Memories) (log : Option (List AuditRecord)) : Session := ⟨m, none, log⟩

/-- `_log`: whether it went through, and the log it leaves. -/
def writeLog (fate : AuditFate) (record : AuditRecord) :
    Option (List AuditRecord) → Bool × Option (List AuditRecord)
  | none => (true, none)
  | some log =>
    match fate with
    | .recorded => (true, some (log ++ [record]))
    | .raises written => (false, some (if written then log ++ [record] else log))

/-- `_tx` around a body and its `_log`. `BEGIN` is not allowed inside a transaction; an exception
rolls back, except one of the `COMMIT` itself. -/
def transact (turn : Turn) (body : Sql (Result × AuditRecord)) (s : Session) :
    Except Failure Result × Session :=
  if s.openTx.isSome ∨ turn.faults.begins then (.error .raised, s)
  else
    match body (s.committed, 0) with
    | .error e => (.error e, s)
    | .ok ((r, record), m, _) =>
      match writeLog turn.faults.audit record s.log with
      | (false, log) => (.error .raised, { s with log })
      | (true, log) =>
        if turn.faults.commit then (.error .raised, { s with openTx := some m, log })
        else (.ok r, { s with committed := m, log })

/-! ## Operations -/

/-- `_visible`. -/
def visibleRow (turn : Turn) (scope : Scope) (id : Str) : Sql Row :=
  statement turn.faults fun m => (visible scope id m).map fun row => (row, m)

/-- `_insert`: the `INSERT`, and the row read back. -/
def insertRow (turn : Turn) (scope : Scope) (new : NewEntry) (checked : Checked)
    (derivedFrom : List Str) : Sql Row := do
  let row ← statement turn.faults (insertEntry turn.world scope new checked derivedFrom)
  statement turn.faults fun m => .ok (row, m)

/-- The `DELETE` of `forget`, `erase` and `sweep_expired`, with its record. -/
def deleteRows (turn : Turn) (p : Row → Bool) (event : String) (scope : Scope) :
    Sql (Result × AuditRecord) := do
  let n ← statement turn.faults fun m => .ok (m.rows.countP p, m.delete p)
  return (.number n, ⟨event, scope, [("count", .int n)]⟩)

/-- What an operation comes to before any transaction: an exception, an answer from the table it
sees, or a transaction; `erase` compacts the index after it. -/
inductive Prepared
  | refused (e : Error)
  | answers (answer : Memories → Except Error Result)
  | writes (body : Sql (Result × AuditRecord)) (compacts : Bool)

/-- `add`. -/
def add (env : Env) (turn : Turn) (scope : Scope) (new : NewEntry) (derivedFrom : List Str) :
    Prepared :=
  match validateNew env new with
  | .error e => .refused e
  | .ok checked =>
    if 100 < derivedFrom.length ∨ ¬ derivedFrom.Nodup ∨ ¬ derivedFrom.all isId then
      .refused (.invalid "derived_from must be up to 100 distinct entry ids")
    else
      .writes (do
        derivedFrom.forM fun d => visibleRow turn scope d >>= fun _ => pure ()
        let row ← insertRow turn scope new checked derivedFrom
        return (.entry row, ⟨"memory.add", scope,
          [("id", .str row.id), ("kind", .str new.kind), ("trust", .str new.trust)]⟩)) false

/-- `supersede`. -/
def supersede (env : Env) (turn : Turn) (scope : Scope) (oldId : Str) (new : Replacement) :
    Prepared :=
  .writes (do
    let old ← visibleRow turn scope oldId
    if old.supersededBy ≠ none then check (.error (.invalid "entry is already superseded"))
    else
      let entry : NewEntry := {
        text := new.text, kind := (new.kind.filter (· ≠ [])).getD old.kind.text, source := new.source
        trust := new.trust, importance := new.importance.getD old.importance
        expiresAt := new.expiresAt, metadata := new.metadata }
      let checked ← check (validateNew env entry)
      let row ← insertRow turn old.scope entry checked [oldId]
      statement turn.faults fun m => .ok ((), m.setSuperseded row.id oldId)
      return (.entry row, ⟨"memory.supersede", scope,
        [("old", .str oldId), ("new", .str row.id)]⟩)) false

/-- `forget`. -/
def forget (turn : Turn) (scope : Scope) (ids : List Str) : Prepared :=
  if 1000 < ids.length ∨ ¬ ids.all isId then
    .refused (.invalid "ids must be up to 1000 entry ids")
  else if ids = [] then .answers fun _ => .ok (.number 0)
  else
    .writes (deleteRows turn (fun r => ids.contains r.id && selects scope r) "memory.forget"
      scope) false

/-- `export`. -/
def exportEntries (turn : Turn) (scope : Scope) : Prepared :=
  .writes (do
    let rows ← statement turn.faults fun m => .ok (exported scope m, m)
    return (.entries rows, ⟨"memory.export", scope, [("count", .int rows.length)]⟩)) false

/-- `erase`. -/
def erase (turn : Turn) (scope : Scope) : Prepared :=
  .writes (deleteRows turn (selects scope) "memory.erase" scope) true

/-- `sweep_expired`. -/
def sweepExpired (turn : Turn) (scope : Scope) : Prepared :=
  .writes (deleteRows turn (fun r => selects scope r && expired turn.now r) "memory.sweep"
    scope) false

/-- An operation up to its transaction. -/
def prepare (env : Env) (turn : Turn) : Op → Prepared
  | .add scope new derivedFrom => add env turn scope new derivedFrom
  | .get scope id => .answers fun m => (visible scope id m).map .entry
  | .count scope => .answers fun m => .ok (.number (m.rows.countP (selects scope)))
  | .search scope q => .answers fun m => search env turn.world scope q m
  | .supersede scope oldId new => supersede env turn scope oldId new
  | .forget scope ids => forget turn scope ids
  | .exportEntries scope => exportEntries turn scope
  | .erase scope => erase turn scope
  | .sweepExpired scope => sweepExpired turn scope

/-- One operation. -/
def exec (env : Env) (turn : Turn) (op : Op) (s : Session) : Except Failure Result × Session :=
  match prepare env turn op with
  | .refused e => (.error (.refused e), s)
  | .answers answer => ((answer s.view).mapError .refused, s)
  | .writes body compacts =>
    match transact turn body s with
    | (.error e, s) => (.error e, s)
    | (.ok r, s) => if compacts && turn.faults.compact then (.error .raised, s) else (.ok r, s)

/-- The connection after an operation. -/
def step (env : Env) (s : Session) (a : Turn × Op) : Session := (exec env a.1 a.2 s).2

/-! ## The condition -/

/-- The operation's event in the audit log. -/
def eventOf : Op → String
  | .add .. => "memory.add"
  | .supersede .. => "memory.supersede"
  | .forget .. => "memory.forget"
  | .exportEntries _ => "memory.export"
  | .erase _ => "memory.erase"
  | .sweepExpired _ => "memory.sweep"
  | .get .. | .count _ | .search .. => ""

/-- What an operation has in hand when it comes to its audit record: its result, the record and the
table it wants to commit. `none` if it answers or raises before. -/
def reached (env : Env) (turn : Turn) (op : Op) (s : Session) :
    Option (Result × AuditRecord × Memories) :=
  match prepare env turn op with
  | .writes body _ =>
    if s.openTx.isSome ∨ turn.faults.begins then none
    else
      match body (s.committed, 0) with
      | .error _ => none
      | .ok ((r, record), m, _) => some (r, record, m)
  | _ => none

/-- `erase` compacts the index. -/
def Op.compacts : Op → Bool
  | .erase _ => true
  | _ => false

/-- The store and the log agree after the operation: both have its change or neither has, an
exception leaves the entries alone, and no transaction is open. -/
structure Upholds (env : Env) (s : Session) (a : Turn × Op) : Prop where
  agrees : ((step env s a).log = s.log ∧ (step env s a).view = s.view) ∨
    ∃ log record, s.log = some log ∧ (step env s a).log = some (log ++ [record]) ∧
      record.event = eventOf a.2 ∧ record.scope = a.2.scope ∧
      (step env s a).view = (Memory.exec env a.1.world a.2 s.view).2
  failed : ∀ e, (exec env a.1 a.2 s).1 = .error e → (step env s a).view = s.view
  closed : (step env s a).openTx = none

/-- If the operation comes to its audit record: an append that raises has not written the record,
the `COMMIT` after an append goes through, and so does the compaction after that; the append and
the compaction may raise if there is nothing to change. -/
def Meets (env : Env) (s : Session) (a : Turn × Op) : Prop :=
  ∀ r record m, reached env a.1 a.2 s = some (r, record, m) →
    match a.1.faults.audit with
    | .raises written => written = true → m = s.view
    | .recorded => a.1.faults.commit = false ∧
        (Op.compacts a.2 = true → a.1.faults.compact = true → m = s.view)

/-! ## What a body does -/

section

variable {α β : Type} {faults : Faults} {m m' : Memories} {n n' : ℕ} {env : Env} {turn : Turn}
  {scope : Scope}

theorem sql_bind_eq_ok {x : Sql α} {f : α → Sql β} {st st' : Memories × ℕ} {b : β} :
    (x >>= f) st = .ok (b, st') ↔ ∃ a st₁, x st = .ok (a, st₁) ∧ f a st₁ = .ok (b, st') := by
  change (x st >>= fun p => f p.1 p.2) = _ ↔ _
  rw [bind_eq_ok]
  exact ⟨fun ⟨⟨a, st₁⟩, h⟩ => ⟨a, st₁, h⟩, fun ⟨a, st₁, h⟩ => ⟨⟨a, st₁⟩, h⟩⟩

theorem sql_pure_eq_ok {a b : α} {st st' : Memories × ℕ} (h : (pure a : Sql α) st = .ok (b, st')) :
    a = b ∧ st = st' := by
  cases h
  exact ⟨rfl, rfl⟩

/-- A statement that goes through does its work. -/
theorem statement_eq_ok {st : Memories → Except Error (α × Memories)} {a : α}
    (h : statement faults st (m, n) = .ok (a, m', n')) : st m = .ok (a, m') := by
  unfold statement at h
  split at h
  · cases h
  · split at h
    · cases h
    · cases h
      assumption

theorem check_eq_ok {x : Except Error α} {a : α} {st st' : Memories × ℕ}
    (h : check x st = .ok (a, st')) : x = .ok a ∧ st = st' := by
  unfold check at h
  split at h
  · cases h
  · cases h
    exact ⟨rfl, rfl⟩

theorem visibleRow_eq_ok {id : Str} {row : Row}
    (h : visibleRow turn scope id (m, n) = .ok (row, m', n')) :
    visible scope id m = .ok row ∧ m' = m := by
  have hst := statement_eq_ok h
  cases hv : visible scope id m with
  | error e =>
    rw [hv] at hst
    cases hst
  | ok row' =>
    rw [hv] at hst
    cases hst
    exact ⟨rfl, rfl⟩

theorem insertRow_eq_ok {new : NewEntry} {checked : Checked} {derivedFrom : List Str} {row : Row}
    (h : insertRow turn scope new checked derivedFrom (m, n) = .ok (row, m', n')) :
    insertEntry turn.world scope new checked derivedFrom m = .ok (row, m') := by
  obtain ⟨row', ⟨m₁, n₁⟩, hins, hsel⟩ := sql_bind_eq_ok.1 h
  have hback := statement_eq_ok hsel
  cases hback
  exact statement_eq_ok hins

theorem deleteRows_eq_ok {p : Row → Bool} {event : String} {r : Result} {record : AuditRecord}
    (h : deleteRows turn p event scope (m, n) = .ok ((r, record), m', n')) :
    r = .number (m.rows.countP p) ∧ m' = m.delete p ∧ record.event = event ∧
      record.scope = scope := by
  obtain ⟨k, ⟨m₁, n₁⟩, hdel, hret⟩ := sql_bind_eq_ok.1 h
  have hst := statement_eq_ok hdel
  cases hst
  obtain ⟨heq, hm⟩ := sql_pure_eq_ok hret
  cases heq
  cases hm
  exact ⟨rfl, rfl, rfl, rfl⟩

/-- The ids of `derived_from` are looked up one by one. -/
theorem forM_visibleRow_eq_ok {ids : List Str}
    (h : (ids.forM fun d => visibleRow turn scope d >>= fun _ => pure ()) (m, n) =
      .ok ((), m', n')) : allVisible scope ids m = .ok () ∧ m' = m := by
  induction ids generalizing n with
  | nil =>
    cases h
    exact ⟨rfl, rfl⟩
  | cons d ids ih =>
    obtain ⟨u, ⟨m₁, n₁⟩, hd, hrest⟩ := sql_bind_eq_ok.1 h
    obtain ⟨row, ⟨m₂, n₂⟩, hrow, hret⟩ := sql_bind_eq_ok.1 hd
    obtain ⟨hvis, rfl⟩ := visibleRow_eq_ok hrow
    obtain ⟨-, hst⟩ := sql_pure_eq_ok hret
    cases hst
    obtain ⟨hall, rfl⟩ := ih hrest
    refine ⟨?_, rfl⟩
    change (((visible scope d m').map fun _ => ()) >>= fun _ => allVisible scope ids m') = _
    rw [hvis]
    exact hall

theorem prepare_of_reached {op : Op} {s : Session} {r : Result} {record : AuditRecord}
    (h : reached env turn op s = some (r, record, m)) :
    ∃ body compacts n', prepare env turn op = .writes body compacts ∧
      body (s.committed, 0) = .ok ((r, record), m, n') := by
  unfold reached at h
  split at h
  case h_2 => cases h
  case h_1 body compacts hprep =>
    split at h
    · cases h
    · split at h
      · cases h
      · rename_i hbody
        cases h
        exact ⟨body, compacts, _, hprep, hbody⟩

variable {body : Sql (Result × AuditRecord)} {compacts : Bool} {r : Result} {record : AuditRecord}

/-- What an operation does in the store of committed transactions, next to what it records. -/
def Does (env : Env) (turn : Turn) (op : Op) (m : Memories) (r : Result) (record : AuditRecord)
    (m' : Memories) : Prop :=
  Memory.exec env turn.world op m = (.ok r, m') ∧ record.event = eventOf op ∧
    record.scope = op.scope

theorem transaction_of_ok {w : Turn} {bodyOf : Memories → Except Error (Result × Memories)}
    (h : bodyOf m = .ok (r, m')) : transaction w.world bodyOf m = (.ok r, m') := by
  unfold transaction
  rw [h]
  rfl

theorem add_of_body {new : NewEntry} {derivedFrom : List Str}
    (hprep : add env turn scope new derivedFrom = .writes body compacts)
    (hbody : body (m, n) = .ok ((r, record), m', n')) :
    Does env turn (.add scope new derivedFrom) m r record m' := by
  unfold add at hprep
  split at hprep
  case h_1 => cases hprep
  case h_2 checked hvalid =>
    split at hprep
    case isTrue => cases hprep
    case isFalse hderived =>
      cases hprep
      obtain ⟨u, ⟨m₁, n₁⟩, hall, hrest⟩ := sql_bind_eq_ok.1 hbody
      obtain ⟨row, ⟨m₂, n₂⟩, hins, hret⟩ := sql_bind_eq_ok.1 hrest
      obtain ⟨heq, hst⟩ := sql_pure_eq_ok hret
      cases heq
      cases hst
      obtain ⟨hvis, rfl⟩ := forM_visibleRow_eq_ok hall
      refine ⟨?_, rfl, rfl⟩
      change Memory.add env turn.world scope new derivedFrom m₁ = _
      unfold Memory.add
      rw [hvalid]
      dsimp only
      rw [if_neg hderived]
      refine transaction_of_ok (w := turn) ?_
      rw [hvis]
      change (insertEntry turn.world scope new checked derivedFrom m₁ >>= _) = _
      rw [insertRow_eq_ok hins]
      rfl

theorem supersede_of_body {oldId : Str} {new : Replacement}
    (hprep : supersede env turn scope oldId new = .writes body compacts)
    (hbody : body (m, n) = .ok ((r, record), m', n')) :
    Does env turn (.supersede scope oldId new) m r record m' := by
  cases hprep
  obtain ⟨old, ⟨m₁, n₁⟩, hold, hrest⟩ := sql_bind_eq_ok.1 hbody
  obtain ⟨hvis, rfl⟩ := visibleRow_eq_ok hold
  split at hrest
  case isTrue =>
    obtain ⟨hcheck, -⟩ := check_eq_ok hrest
    cases hcheck
  case isFalse hcurrent =>
    obtain ⟨checked, st₂, hcheck, hrest⟩ := sql_bind_eq_ok.1 hrest
    obtain ⟨hvalid, rfl⟩ := check_eq_ok hcheck
    obtain ⟨row, ⟨m₃, n₃⟩, hins, hrest⟩ := sql_bind_eq_ok.1 hrest
    obtain ⟨u, ⟨m₄, n₄⟩, hupd, hret⟩ := sql_bind_eq_ok.1 hrest
    have hset := statement_eq_ok hupd
    cases hset
    obtain ⟨heq, hst⟩ := sql_pure_eq_ok hret
    cases heq
    cases hst
    refine ⟨?_, rfl, rfl⟩
    change Memory.supersede env turn.world scope oldId new m₁ = _
    apply transaction_of_ok (w := turn)
    rw [hvis]
    change (if old.supersededBy ≠ none then _ else _) = _
    rw [if_neg hcurrent]
    dsimp only
    rw [hvalid]
    change (insertEntry turn.world old.scope _ checked [oldId] m₁ >>= _) = _
    rw [insertRow_eq_ok hins]
    rfl

theorem forget_of_body {ids : List Str}
    (hprep : forget turn scope ids = .writes body compacts)
    (hbody : body (m, n) = .ok ((r, record), m', n')) :
    Does env turn (.forget scope ids) m r record m' := by
  unfold forget at hprep
  split at hprep
  case isTrue => cases hprep
  case isFalse hids =>
    split at hprep
    case isTrue => cases hprep
    case isFalse hne =>
      cases hprep
      obtain ⟨rfl, rfl, hevent, hscope⟩ := deleteRows_eq_ok hbody
      refine ⟨?_, hevent, hscope⟩
      change Memory.forget turn.world scope ids m = _
      unfold Memory.forget
      rw [if_neg hids, if_neg hne]
      rfl

theorem exportEntries_of_body
    (hprep : exportEntries turn scope = .writes body compacts)
    (hbody : body (m, n) = .ok ((r, record), m', n')) :
    Does env turn (.exportEntries scope) m r record m' := by
  cases hprep
  obtain ⟨rows, ⟨m₁, n₁⟩, hsel, hret⟩ := sql_bind_eq_ok.1 hbody
  have hst := statement_eq_ok hsel
  cases hst
  obtain ⟨heq, hst⟩ := sql_pure_eq_ok hret
  cases heq
  cases hst
  exact ⟨rfl, rfl, rfl⟩

/-- **A body that goes through makes the change of the operation.** -/
theorem exec_of_reached {op : Op} {s : Session} {r : Result} {record : AuditRecord}
    (hclosed : s.openTx = none) (h : reached env turn op s = some (r, record, m)) :
    Memory.exec env turn.world op s.view = (.ok r, m) ∧ record.event = eventOf op ∧
      record.scope = op.scope := by
  have hview : s.view = s.committed := by rw [Session.view, hclosed, Option.getD_none]
  obtain ⟨body, compacts, n', hprep, hbody⟩ := prepare_of_reached h
  rw [hview]
  cases op with
  | add scope new derivedFrom => exact add_of_body hprep hbody
  | get scope id => cases hprep
  | count scope => cases hprep
  | search scope q => cases hprep
  | supersede scope oldId new => exact supersede_of_body hprep hbody
  | forget scope ids => exact forget_of_body hprep hbody
  | exportEntries scope => exact exportEntries_of_body hprep hbody
  | erase scope =>
    cases hprep
    obtain ⟨rfl, rfl, hevent, hscope⟩ := deleteRows_eq_ok hbody
    exact ⟨rfl, hevent, hscope⟩
  | sweepExpired scope =>
    cases hprep
    obtain ⟨rfl, rfl, hevent, hscope⟩ := deleteRows_eq_ok hbody
    exact ⟨rfl, hevent, hscope⟩

end

/-! ## Agreement -/

section

variable {env : Env} {s : Session} {turn : Turn} {op : Op} {r : Result} {record : AuditRecord}
  {m : Memories} {log : List AuditRecord}

/-- An operation that does not come to its audit record leaves the connection as it was. -/
theorem step_of_not_reached (h : reached env turn op s = none) :
    step env s (turn, op) = s := by
  unfold reached at h
  unfold step exec
  cases hprep : prepare env turn op with
  | refused e => rfl
  | answers answer => rfl
  | writes body compacts =>
    rw [hprep] at h
    dsimp only at h ⊢
    unfold transact
    split at h
    case isTrue hbegin =>
      rw [if_pos hbegin]
    case isFalse hbegin =>
      rw [if_neg hbegin]
      split at h
      · rfl
      · cases h

theorem compacts_of_prepare {body : Sql (Result × AuditRecord)} {compacts : Bool}
    (h : prepare env turn op = .writes body compacts) : compacts = Op.compacts op := by
  cases op with
  | add scope new derivedFrom =>
    change add env turn scope new derivedFrom = _ at h
    unfold add at h
    split at h
    · cases h
    · split at h
      · cases h
      · cases h
        rfl
  | forget scope ids =>
    change forget turn scope ids = _ at h
    unfold forget at h
    split at h
    · cases h
    · split at h
      · cases h
      · cases h
        rfl
  | _ => cases h <;> rfl

/-- What becomes of an operation that comes to its audit record. -/
theorem exec_of_record (hlog : s.log = some log)
    (h : reached env turn op s = some (r, record, m)) :
    exec env turn op s =
      match turn.faults.audit with
      | .raises written =>
        (.error .raised, { s with log := some (if written then log ++ [record] else log) })
      | .recorded =>
        if turn.faults.commit then
          (.error .raised, { s with openTx := some m, log := some (log ++ [record]) })
        else
          (if Op.compacts op && turn.faults.compact then .error .raised else .ok r,
            { s with committed := m, log := some (log ++ [record]) }) := by
  obtain ⟨body, compacts, n, hprep, hbody⟩ := prepare_of_reached h
  have hcompacts := compacts_of_prepare hprep
  subst hcompacts
  have hbegin : ¬ (s.openTx.isSome ∨ turn.faults.begins) := by
    intro hor
    rw [reached, hprep] at h
    dsimp only at h
    rw [if_pos hor] at h
    cases h
  unfold exec transact
  rw [hprep]
  dsimp only
  rw [if_neg hbegin, hbody, hlog]
  cases haudit : turn.faults.audit with
  | raises written => simp [writeLog]
  | recorded =>
    cases hcommit : turn.faults.commit with
    | true => simp [writeLog]
    | false =>
      cases Op.compacts op && turn.faults.compact <;> simp [writeLog]

theorem upholds_of_same (h : step env s (turn, op) = s) (hclosed : s.openTx = none) :
    Upholds env s (turn, op) where
  agrees := .inl (by rw [h]; exact ⟨rfl, rfl⟩)
  failed _ _ := by rw [h]
  closed := by rw [h, hclosed]

/-- **One operation.** On a connection with no open transaction, the store and the log agree
afterwards exactly under the condition `Meets`. -/
theorem upholds_iff_meets (hclosed : s.openTx = none) (hlog : s.log = some log) :
    Upholds env s (turn, op) ↔ Meets env s (turn, op) := by
  cases h : reached env turn op s with
  | none =>
    refine iff_of_true (upholds_of_same (step_of_not_reached h) hclosed) ?_
    intro r record m hm
    rw [h] at hm
    cases hm
  | some found =>
    obtain ⟨r, record, m⟩ := found
    have hexec := exec_of_record hlog h
    have hview : s.view = s.committed := by rw [Session.view, hclosed, Option.getD_none]
    obtain ⟨hchange, hevent, hscope⟩ := exec_of_reached hclosed h
    have hmeets : Meets env s (turn, op) ↔
        match turn.faults.audit with
        | .raises written => written = true → m = s.view
        | .recorded => turn.faults.commit = false ∧
            (Op.compacts op = true → turn.faults.compact = true → m = s.view) := by
      constructor
      · intro hm
        exact hm r record m h
      · intro hm r' record' m' h'
        rw [h] at h'
        cases h'
        exact hm
    rw [hmeets]
    cases haudit : turn.faults.audit with
    | raises written =>
      rw [haudit] at hexec
      cases written with
      | false =>
        refine iff_of_true (upholds_of_same ?_ hclosed) (fun hw => nomatch hw)
        rw [step, hexec]
        cases s
        cases hlog
        rfl
      | true =>
        have hstep : step env s (turn, op) = { s with log := some (log ++ [record]) } := by
          rw [step, hexec]
          rfl
        have hsame : (step env s (turn, op)).view = s.view := by
          rw [hstep]
          rfl
        constructor
        · intro hup _
          rcases hup.agrees with ⟨hl, -⟩ | ⟨-, -, -, -, -, -, hv⟩
          · rw [hstep, hlog] at hl
            simp at hl
          · rw [hchange, hsame] at hv
            exact hv.symm
        · intro hm
          refine ⟨.inr ⟨log, record, hlog, by rw [hstep], hevent, hscope, ?_⟩, fun _ _ => hsame, ?_⟩
          · rw [hchange, hsame, hm rfl]
          · rw [hstep, hclosed]
    | recorded =>
      rw [haudit] at hexec
      dsimp only at hexec ⊢
      cases hcommit : turn.faults.commit with
      | true =>
        refine iff_of_false (fun hup => ?_) (fun hm => nomatch hm.1)
        have hopen := hup.closed
        rw [step, hexec, hcommit] at hopen
        cases hopen
      | false =>
        rw [hcommit, if_neg Bool.false_ne_true] at hexec
        have hstep : step env s (turn, op) =
            { s with committed := m, log := some (log ++ [record]) } := by
          rw [step, hexec]
        have hnew : (step env s (turn, op)).view = m := by
          rw [hstep, Session.view, hclosed, Option.getD_none]
        constructor
        · intro hup
          refine ⟨rfl, fun hop hcompact => ?_⟩
          rw [← hnew]
          refine hup.failed .raised ?_
          rw [hexec, hop, hcompact]
          rfl
        · rintro ⟨-, hm⟩
          refine ⟨.inr ⟨log, record, hlog, by rw [hstep], hevent, hscope, ?_⟩, fun e he => ?_, ?_⟩
          · rw [hnew, hchange]
          · rw [hexec] at he
            rw [hnew]
            cases hop : Op.compacts op with
            | false =>
              rw [hop] at he
              cases he
            | true =>
              cases hcompact : turn.faults.compact with
              | false =>
                rw [hop, hcompact] at he
                cases he
              | true => exact hm hop hcompact
          · rw [hstep, hclosed]

/-- No transaction is open, and the store has an audit log. -/
def Sound (s : Session) : Prop := s.openTx = none ∧ s.log.isSome

theorem upholds_iff_of_sound (a : Turn × Op) (h : Sound s) :
    Upholds env s a ↔ Meets env s a := by
  obtain ⟨log, hlog⟩ := Option.isSome_iff_exists.1 h.2
  exact upholds_iff_meets h.1 hlog

theorem sound_step (a : Turn × Op) (h : Sound s) (hup : Upholds env s a) :
    Sound (step env s a) := by
  refine ⟨hup.closed, ?_⟩
  rcases hup.agrees with ⟨hl, -⟩ | ⟨log, record, _, hl, -⟩
  · rw [hl]
    exact h.2
  · rw [hl]
    rfl

/-- **Memory store and audit log agree.** In a run of operations, each of which may raise at any of
its points, the store and the log agree after every operation exactly if each of them meets the
condition. -/
theorem upheld_iff (env : Env) (m : Memories) (log : List AuditRecord) (run : List (Turn × Op)) :
    Each (step env) (Upholds env) (Session.opened m (some log)) run ↔
      Each (step env) (Meets env) (Session.opened m (some log)) run :=
  each_iff (P := Upholds env) (Q := Meets env) (I := Sound)
    (fun _ a h => upholds_iff_of_sound a h) (fun _ a h hup => sound_step a h hup) ⟨rfl, rfl⟩ run

/-! ## The recorded operations -/

/-- `Replays env s run s'`: some of the operations of `run`, in their order and one for each record
added to the log, take the table of `s` to that of `s'`. -/
inductive Replays (env : Env) (s : Session) : List (Turn × Op) → Session → Prop
  | done {s' : Session} (hlog : s'.log = s.log) (hview : s'.view = s.view) : Replays env s [] s'
  | skip {run : List (Turn × Op)} {s₁ s' : Session} (a : Turn × Op) (h : Replays env s run s₁)
      (hlog : s'.log = s₁.log) (hview : s'.view = s₁.view) : Replays env s (run ++ [a]) s'
  | recorded {run : List (Turn × Op)} {s₁ s' : Session} {log : List AuditRecord}
      {record : AuditRecord} (a : Turn × Op) (h : Replays env s run s₁) (hold : s₁.log = some log)
      (hlog : s'.log = some (log ++ [record])) (hevent : record.event = eventOf a.2)
      (hview : s'.view = (Memory.exec env a.1.world a.2 s₁.view).2) :
      Replays env s (run ++ [a]) s'

/-- After a run whose steps meet the condition, the store holds what the operations with a record
have made of it, in the order of the log. -/
theorem replay_of_each (env : Env) (m : Memories) (log : List AuditRecord)
    (run : List (Turn × Op))
    (h : Each (step env) (Meets env) (Session.opened m (some log)) run) :
    Replays env (Session.opened m (some log)) run
      (run.foldl (step env) (Session.opened m (some log))) := by
  rw [← upheld_iff] at h
  induction run using List.reverseRecOn with
  | nil => exact .done rfl rfl
  | append_singleton run a ih =>
    rw [each_append] at h
    rw [List.foldl_append]
    have hup := h.2.1
    rcases hup.agrees with ⟨hl, hv⟩ | ⟨old, record, hold, hl, hevent, -, hv⟩
    · exact .skip a (ih h.1) hl hv
    · exact .recorded a (ih h.1) hold hl hevent hv

/-- Nothing raises. -/
def Faults.calm : Faults := ⟨false, fun _ => false, .recorded, false, false⟩

/-- A `COMMIT` that raises, as when the disk is full: the operation fails, its record and its entry
are there, and the transaction stays open. -/
theorem failing_commit_leaves_transaction :
    ¬ ∀ (env : Env) (m : Memories) (log : List AuditRecord) (run : List (Turn × Op)),
      Each (step env) (Upholds env) (Session.opened m (some log)) run := by
  intro h
  have hclosed := (h wordEnv .empty []
    [(⟨0, idOf '1', { Faults.calm with commit := true }⟩, .add tenantA (fact "milk") [])]).1.closed
  cases hclosed

end

end RagLeap.Memory.Audited
