import RagLeap.Foundations.JsonRoundTrip
import RagLeap.Security.Scope

/-!
# The audit log

`ragleap_security.audit`: one JSON record a line, each with the hash of its content and the hash of
the record before it. `verify` checks a file from the start, `last` reads where it ends, and
`append` adds a record; `fate` says how far a write got that failed. The hash function, the floats
of the interpreter and the order in which it sorts numbers come with the environment `AuditEnv`.
-/

namespace RagLeap.Security

open JsonText

/-! ## Python values -/

/-- A key of a dictionary; `json.dumps` refuses the others. -/
inductive Key (F : Type)
  | str (s : PyStr)
  | int (n : ℤ)
  | bool (b : Bool)
  | float (x : Flt F)
  | none
  | other

/-- A value of the caller: `list` stands for tuples too, `secret` for a `SecretStr` and `other`
for what `json.dumps` does not know. -/
inductive Py (F : Type)
  | atom (a : Atom F)
  | str (s : PyStr)
  | list (items : List (Py F))
  | dict (items : List (Key F × Py F))
  | secret
  | other

variable {F : Type}

namespace Key

def isStr : Key F → Bool
  | str _ => true
  | _ => false

def isNumber : Key F → Bool
  | int _ | bool _ | float _ => true
  | _ => false

/-- The integer a key equals. -/
def toInt : Key F → ℤ
  | int n => n
  | bool true => 1
  | _ => 0

/-- The string a key is. -/
def toStr : Key F → PyStr
  | str s => s
  | _ => []

end Key

/-- What the log uses of the interpreter. -/
structure AuditEnv (F : Type) extends Floats F where
  /-- `sorted(items)` for keys that are numbers. -/
  sortNumbers : List (Key F × Value F) → List (Key F × Value F)
  sortNumbers_perm : ∀ items, (sortNumbers items).Perm items
  /-- The integer a float equals. -/
  toInt? : F → Option ℤ
  /-- `x + 1`. -/
  succ : F → Flt F
  /-- `hashlib.sha256(data).digest()`. -/
  sha256 : List UInt8 → List UInt8

/-- The environment of a program without finite floats. -/
def AuditEnv.integers (sha256 : List UInt8 → List UInt8) : AuditEnv Empty where
  toFloats := noFloats
  sortNumbers items := items.insertionSort fun e e' => e.1.toInt ≤ e'.1.toInt
  sortNumbers_perm items := items.perm_insertionSort _
  toInt? := Empty.elim
  succ := Empty.elim
  sha256 := sha256

/-- The 32 bytes of a number. -/
def digestBytes (n : ℕ) : List UInt8 :=
  (List.range 32).map fun i => UInt8.ofNat (n / 0x100 ^ (31 - i))

/-- A hash function with the digests of a table; any other text has itself after 33 zeros. -/
def tableHash (table : List (List UInt8 × ℕ)) (b : List UInt8) : List UInt8 :=
  match table.lookup b with
  | some n => digestBytes n
  | none => List.replicate 33 0 ++ b

variable (env : AuditEnv F)

/-! ## Canonical text -/

/-- The name `json.dumps` makes of a key. -/
def keyText : Key F → Option PyStr
  | .str s => some s
  | .int n => some (intText n)
  | .bool b => some (atomText env.toFloats (.bool b))
  | .float x => some (floatText env.toFloats x)
  | .none => some (text "null".toList)
  | .other => none

/-- `sorted(items)`; none where two keys have no order. -/
def sortItems (items : List (Key F × Value F)) : Option (List (Key F × Value F)) :=
  if items.all fun e => e.1.isStr then
    some (items.insertionSort fun e e' => e.1.toStr ≤ e'.1.toStr)
  else if items.all fun e => e.1.isNumber then some (env.sortNumbers items)
  else if items.length ≤ 1 then some items
  else none

/-- The members of an object from the items of a dictionary. -/
def nameItems : List (Key F × Value F) → Option (List (PyStr × Value F))
  | [] => some []
  | (k, t) :: items => (keyText env k).bind fun s => (nameItems items).map ((s, t) :: ·)

mutual

/-- The JSON value of a Python value, with `_default` for a secret. -/
def valueOf : Py F → Option (Value F)
  | .atom a => some (.atom a)
  | .str s => some (.str s)
  | .list items => (valuesOf items).map .arr
  | .dict items => (((itemsOf items).bind (sortItems env)).bind (nameItems env)).map .obj
  | .secret => some (.str (text "[REDACTED]".toList))
  | .other => none

def valuesOf : List (Py F) → Option (List (Value F))
  | [] => some []
  | v :: items => (valueOf v).bind fun t => (valuesOf items).map (t :: ·)

def itemsOf : List (Key F × Py F) → Option (List (Key F × Value F))
  | [] => some []
  | (k, v) :: items => (valueOf v).bind fun t => (itemsOf items).map ((k, t) :: ·)

end

/-- `_canon`; none where it raises. -/
def canon (v : Py F) : Option (List UInt8) :=
  (valueOf env v).map fun t => PyStr.encodeAscii (print env.toFloats t)

/-- `hexdigest()`. -/
def hexdigest (b : List UInt8) : PyStr :=
  b.flatMap fun b => [hexDigit (b.toNat / 0x10), hexDigit (b.toNat % 0x10)]

/-- `_digest`. -/
def digest (v : Py F) : Option PyStr := (canon env v).map fun b => hexdigest (env.sha256 b)

/-- `json.loads`; none where it raises. -/
def loads (b : List UInt8) : Option (Value F) := (PyStr.decode b).bind (parse env.toFloats)

mutual

/-- A parsed value as a Python value. -/
def ofValue : Value F → Py F
  | .atom a => .atom a
  | .str s => .str s
  | .arr items => .list (ofValues items)
  | .obj members => .dict (ofMembers members)

def ofValues : List (Value F) → List (Py F)
  | [] => []
  | t :: items => ofValue t :: ofValues items

def ofMembers : List (PyStr × Value F) → List (Key F × Py F)
  | [] => []
  | (k, t) :: members => (.str k, ofValue t) :: ofMembers members

end

/-! ## Records -/

def genesis : PyStr := List.replicate 64 (ch '0')

def maxRecordBytes : ℕ := 65536

/-- The line break. -/
def newline : UInt8 := 0x0A

/-- The names of the fields of a record. -/
inductive Name
  | seq
  | ts
  | event
  | scope
  | data
  | prev
  | hash
  deriving DecidableEq

def Name.text : Name → PyStr
  | seq => RagLeap.text "seq".toList
  | ts => RagLeap.text "ts".toList
  | event => RagLeap.text "event".toList
  | scope => RagLeap.text "scope".toList
  | data => RagLeap.text "data".toList
  | prev => RagLeap.text "prev".toList
  | hash => RagLeap.text "hash".toList

/-- `_KEYS`. -/
def keys : List PyStr :=
  [Name.seq, Name.ts, Name.event, Name.scope, Name.data, Name.prev, Name.hash].map Name.text

/-- `set(rec) == _KEYS`. -/
def hasKeys (members : List (PyStr × Value F)) : Bool :=
  (members.map Prod.fst).all (· ∈ keys) && keys.all (· ∈ members.map Prod.fst)

/-- The record without its hash. -/
def body (members : List (PyStr × Value F)) : List (PyStr × Value F) :=
  members.filter fun m => m.1 ≠ Name.hash.text

/-- `rec["seq"] == n` for a sequence number that is no Boolean. -/
def seqIs (v : Option (Value F)) (n : ℕ) : Bool :=
  match v with
  | some (.atom (.int m)) => m = n
  | some (.atom (.float (.finite x))) => env.toInt? x = some (n : ℤ)
  | _ => false

/-- The string a field holds. -/
def asStr? : Option (Value F) → Option PyStr
  | some (.str s) => some s
  | _ => none

/-- The code points below 128; `compare_digest` raises on a string with others. -/
def isAsciiStr (s : PyStr) : Bool := s.all fun c => c.val < 0x80

/-! ## Verification -/

inductive VerifyError
  | tooLarge
  | incomplete
  | invalidJson
  | wrongFields
  | outOfOrder
  | chainLink
  | content
  | countAnchor
  | lastHashAnchor
  deriving DecidableEq

structure VerifyResult where
  ok : Bool
  records : ℕ
  lastHash : PyStr
  error : Option VerifyError
  line : Option ℕ
  deriving DecidableEq

/-- What a line of the log turns out to be. -/
inductive Check
  | record (hash : PyStr)
  | bad (error : VerifyError)
  | raises

/-- The lines of a file, each with its line break. -/
def lines : List UInt8 → List (List UInt8)
  | [] => []
  | b :: file =>
    if b = newline then [b] :: lines file
    else
      match lines file with
      | [] => [[b]]
      | line :: rest => (b :: line) :: rest

/-- One step of the loop of `verify`. -/
def checkLine (prev : PyStr) (count : ℕ) (raw : List UInt8) : Check :=
  if maxRecordBytes + 1 < raw.length then .bad .tooLarge
  else if raw.getLast? ≠ some newline then .bad .incomplete
  else
    match loads env raw with
    | none => .bad .invalidJson
    | some (.obj rec) =>
      if ¬ hasKeys rec then .bad .wrongFields
      else if ¬ seqIs env (rec.lookup Name.seq.text) (count + 1) then .bad .outOfOrder
      else if asStr? (rec.lookup Name.prev.text) ≠ some prev then .bad .chainLink
      else
        match asStr? (rec.lookup Name.hash.text), digest env (ofValue (.obj (body rec))) with
        | none, _ => .bad .content
        | some _, none => .raises
        | some h, some d =>
          if ¬ isAsciiStr h then .raises else if h = d then .record h else .bad .content
    | some _ => .bad .wrongFields

/-- The loop of `verify` from the line number `line` on; none where it raises. -/
def scan (prev : PyStr) (count line : ℕ) : List (List UInt8) → Option VerifyResult
  | [] => some ⟨true, count, prev, none, none⟩
  | raw :: rest =>
    match checkLine env prev count raw with
    | .record h => scan h (count + 1) (line + 1) rest
    | .bad error => some ⟨false, count, prev, some error, some line⟩
    | .raises => none

/-- `verify`; a missing file is an empty one. -/
def verify (file : List UInt8) (expectedCount : Option ℤ) (expectedLastHash : Option PyStr) :
    Option VerifyResult :=
  (scan env genesis 0 1 (lines file)).bind fun r =>
    if ¬ r.ok then some r
    else if ∃ c ∈ expectedCount, c ≠ r.records then
      some ⟨false, r.records, r.lastHash, some .countAnchor, none⟩
    else
      match expectedLastHash with
      | none => some r
      | some h =>
        if ¬ (isAsciiStr h ∧ isAsciiStr r.lastHash) then none
        else if h ≠ r.lastHash then
          some ⟨false, r.records, r.lastHash, some .lastHashAnchor, none⟩
        else some r

/-! ## Appending -/

/-- Why an append raises. -/
inductive AppendError
  | eventName
  | dataType
  | scope
  | incomplete
  | invalidLast
  | seqType
  | serialize
  | tooLarge
  | os
  | reread
  deriving DecidableEq

/-- `tail.split(b"\n")`. -/
def splitLines : List UInt8 → List (List UInt8)
  | [] => [[]]
  | b :: file =>
    if b = newline then [] :: splitLines file
    else
      match splitLines file with
      | [] => [[b]]
      | line :: rest => (b :: line) :: rest

/-- The sequence number and the hash of a record `_last` accepts. -/
def readLast (raw : List UInt8) : Except AppendError (Value F × PyStr) :=
  match loads env raw with
  | some (.obj rec) =>
    match rec.lookup Name.seq.text, asStr? (rec.lookup Name.hash.text) with
    | some seq, some h =>
      if hasKeys rec ∧ some h = digest env (ofValue (.obj (body rec))) then .ok (seq, h)
      else .error .invalidLast
    | _, _ => .error .invalidLast
  | _ => .error .invalidLast

/-- `_last`. -/
def last (file : List UInt8) : Except AppendError (Value F × PyStr) :=
  if file = [] then .ok (.atom (.int 0), genesis)
  else
    let tail := file.drop (file.length - 2 * maxRecordBytes)
    if tail.getLast? ≠ some newline then .error .incomplete
    else
      match (splitLines tail).dropLast.getLast? with
      | some raw => readLast env raw
      | none => .error .invalidLast

/-- The time of a record, as `isoformat` writes it. -/
structure Stamp where
  text : Str
  plain : text.all (fun c => 0x20 < c.toNat && c.toNat < 0x7F) = true

/-- The scope argument: none, a `Scope`, or something else. -/
inductive ScopeArg
  | none
  | scope (s : Scope)
  | other

/-- The arguments of `append`, with the time it reads. -/
structure Call (F : Type) where
  event : Py F
  data : Option (Py F)
  scope : ScopeArg
  now : Stamp

/-- `_EVENT.match`. -/
def isEvent : PyStr → Bool
  | [] => false
  | c :: s =>
    (ch 'a' ≤ c && c ≤ ch 'z') && s.length ≤ 63 &&
      s.all fun c =>
        (ch 'a' ≤ c && c ≤ ch 'z') || isDigit c || c = ch '_' || c = ch '.' || c = ch '-'

/-- The event, the data and the scope key, once they passed their checks. -/
def checkCall (call : Call F) : Except AppendError (PyStr × List (Key F × Py F) × Py F) :=
  match call.event with
  | .str event =>
    if ¬ isEvent event then .error .eventName
    else
      match call.data.getD (.dict []) with
      | .dict data =>
        match call.scope with
        | .none => .ok (event, data, .atom .null)
        | .scope s => .ok (event, data, .str (text s.key))
        | .other => .error .scope
      | _ => .error .dataType
  | _ => .error .eventName

/-- `seq + 1`; none where it raises. -/
def plusOne : Value F → Option (Atom F)
  | .atom (.int n) => some (.int (n + 1))
  | .atom (.bool b) => some (.int (if b then 2 else 1))
  | .atom (.float (.finite x)) => some (.float (env.succ x))
  | .atom (.float x) => some (.float x)
  | _ => none

/-- The fields of a new record, its hash apart. -/
def fieldsOf (seq : Atom F) (now : Stamp) (event : PyStr) (scope : Py F)
    (data : List (Key F × Py F)) (prev : PyStr) : List (Key F × Py F) :=
  [(.str Name.seq.text, .atom seq), (.str Name.ts.text, .str (text now.text)),
    (.str Name.event.text, .str event), (.str Name.scope.text, scope),
    (.str Name.data.text, .dict data), (.str Name.prev.text, .str prev)]

/-- The line `append` writes for a call after a record with `place`'s sequence number and hash. -/
def lineOf (place : Value F × PyStr) (call : Call F) : Except AppendError (List UInt8) :=
  (checkCall call).bind fun (event, data, scope) =>
    match plusOne env place.1 with
    | none => .error .seqType
    | some seq =>
      let fields := fieldsOf seq call.now event scope data place.2
      match digest env (.dict fields) with
      | none => .error .serialize
      | some h =>
        match canon env (.dict (fields ++ [(.str Name.hash.text, .str h)])) with
        | none => .error .serialize
        | some b =>
          if maxRecordBytes < (b ++ [newline]).length then .error .tooLarge
          else .ok (b ++ [newline])

/-- `append`: the record it returns or why it raises, and the file after it. A write with the fate
`some k` fails once `k` bytes of the line are in the file. -/
def append (file : List UInt8) (call : Call F) (fate : Option ℕ) :
    Except AppendError (Value F) × List UInt8 :=
  match checkCall call with
  | .error e => (.error e, file)
  | .ok _ =>
    match last env file with
    | .error e => (.error e, file)
    | .ok place =>
      match lineOf env place call with
      | .error e => (.error e, file)
      | .ok line =>
        match fate with
        | some k => (.error .os, file ++ line.take k)
        | none =>
          match loads env line with
          | some rec => (.ok rec, file ++ line)
          | none => (.error .reread, file ++ line)

end RagLeap.Security
