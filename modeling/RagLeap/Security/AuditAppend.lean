import RagLeap.Security.AuditRecords

/-!
# Appending to a log that verifies

What one `append` leaves behind (`append_meets`). The line it writes is a record for the next
`verify` exactly if reading the data back keeps the order of its names (`Ordered`): the hash is
taken of the Python values, whose numeric keys sort as numbers, and checked against the parsed
record, whose keys sort as text. A write that fails part of the way leaves the part in the file.
-/

namespace RagLeap.Security

open JsonText

variable {F : Type} (env : AuditEnv F)

/-! ## The end of the log -/

/-- The parsed records of a file. -/
def records (file : List UInt8) : List (Value F) := (lines file).filterMap (loads env)

/-- The sequence number and the hash of the last record. -/
def place (file : List UInt8) : Value F × PyStr :=
  match (records env file).getLast? with
  | some (.obj rec) =>
    ((rec.lookup Name.seq.text).getD (.atom .null), (asStr? (rec.lookup Name.hash.text)).getD [])
  | _ => (.atom (.int 0), genesis)

/-- The last line of the file decodes without its line break too. -/
def Readable (file : List UInt8) : Prop :=
  ∀ raw ∈ (lines file).getLast?, (PyStr.decode raw.dropLast).isSome = true

variable {env}

theorem exists_lookup_of_asStr? {members : List (PyStr × Value F)} {k s : PyStr}
    (h : asStr? (members.lookup k) = some s) : members.lookup k = some (.str s) := by
  cases hv : members.lookup k with
  | none =>
    rw [hv] at h
    exact nomatch h
  | some v =>
    rw [hv] at h
    cases v with
    | str s' => exact congrArg (some ∘ Value.str) (Option.some.inj h)
    | _ => exact nomatch h

/-- The names of a record in the order of the text. -/
def Name.rank : Name → ℕ
  | data => 0
  | event => 1
  | hash => 2
  | prev => 3
  | scope => 4
  | seq => 5
  | ts => 6

theorem Name.text_le_iff (a b : Name) : a.text ≤ b.text ↔ a.rank ≤ b.rank := by
  cases a <;> cases b <;> decide

theorem Name.text_injective : Function.Injective Name.text := by
  intro a b h
  have hrank : a.rank = b.rank :=
    le_antisymm ((Name.text_le_iff a b).1 h.le) ((Name.text_le_iff b a).1 h.ge)
  revert hrank
  cases a <;> cases b <;> decide

/-- The values of the fields of a record, its hash apart. -/
structure Fields (F : Type) where
  data : Value F
  event : PyStr
  prev : PyStr
  scope : Value F
  seq : Atom F
  ts : PyStr

namespace Fields

variable (f : Fields F)

/-- The fields in the order of the text. -/
def members : List (PyStr × Value F) :=
  [(Name.data.text, f.data), (Name.event.text, .str f.event), (Name.prev.text, .str f.prev),
    (Name.scope.text, f.scope), (Name.seq.text, .atom f.seq), (Name.ts.text, .str f.ts)]

/-- The fields and a hash in the order of the text. -/
def withHash (hash : PyStr) : List (PyStr × Value F) :=
  [(Name.data.text, f.data), (Name.event.text, .str f.event), (Name.hash.text, .str hash),
    (Name.prev.text, .str f.prev), (Name.scope.text, f.scope), (Name.seq.text, .atom f.seq),
    (Name.ts.text, .str f.ts)]

end Fields

theorem itemsOf_str {fields : List (PyStr × Py F)} {members : List (PyStr × Value F)}
    (h : List.Forall₂ (fun e m => e.1 = m.1 ∧ valueOf env e.2 = some m.2) fields members) :
    itemsOf env (fields.map fun e => (.str e.1, e.2)) =
      some (members.map fun m => (.str m.1, m.2)) := by
  induction h with
  | nil => rfl
  | cons hhead _ ih =>
    rw [List.map_cons, itemsOf, hhead.2, ih, hhead.1]
    rfl

theorem valueOf_dict_str {fields : List (PyStr × Py F)} {members : List (PyStr × Value F)}
    (h : List.Forall₂ (fun e m => e.1 = m.1 ∧ valueOf env e.2 = some m.2) fields members) :
    valueOf env (.dict (fields.map fun e => (.str e.1, e.2))) =
      some (.obj (Value.sortMembers members)) := by
  rw [valueOf, itemsOf_str h, Option.bind_some, sortItems_str, Option.bind_some, nameItems_str]
  rfl

theorem valueOf_fieldsOf {f : Fields F} {now : Stamp} {scope : Py F} {data : List (Key F × Py F)}
    (hts : f.ts = text now.text) (hscope : valueOf env scope = some f.scope)
    (hdata : valueOf env (.dict data) = some f.data) :
    valueOf env (.dict (fieldsOf f.seq now f.event scope data f.prev)) = some (.obj f.members) := by
  have hsorted : Value.sortMembers (F := F)
      [(Name.seq.text, .atom f.seq), (Name.ts.text, .str f.ts), (Name.event.text, .str f.event),
        (Name.scope.text, f.scope), (Name.data.text, f.data), (Name.prev.text, .str f.prev)] =
      f.members := by
    simp [Value.sortMembers, Name.text_le_iff, Name.rank, Fields.members]
  have hfields : List.Forall₂ (fun (e : PyStr × Py F) (m : PyStr × Value F) =>
      e.1 = m.1 ∧ valueOf env e.2 = some m.2)
      [(Name.seq.text, .atom f.seq), (Name.ts.text, .str (text now.text)),
        (Name.event.text, .str f.event), (Name.scope.text, scope), (Name.data.text, .dict data),
        (Name.prev.text, .str f.prev)]
      [(Name.seq.text, .atom f.seq), (Name.ts.text, .str f.ts), (Name.event.text, .str f.event),
        (Name.scope.text, f.scope), (Name.data.text, f.data), (Name.prev.text, .str f.prev)] := by
    rw [hts]
    exact .cons ⟨rfl, rfl⟩ (.cons ⟨rfl, rfl⟩ (.cons ⟨rfl, rfl⟩ (.cons ⟨rfl, hscope⟩
      (.cons ⟨rfl, hdata⟩ (.cons ⟨rfl, rfl⟩ .nil)))))
  rw [← hsorted]
  exact valueOf_dict_str hfields

theorem valueOf_fieldsOf_hash {f : Fields F} {now : Stamp} {scope : Py F}
    {data : List (Key F × Py F)} (hts : f.ts = text now.text)
    (hscope : valueOf env scope = some f.scope) (hdata : valueOf env (.dict data) = some f.data)
    (hash : PyStr) :
    valueOf env (.dict (fieldsOf f.seq now f.event scope data f.prev ++
      [(.str Name.hash.text, .str hash)])) = some (.obj (f.withHash hash)) := by
  have hsorted : Value.sortMembers (F := F)
      [(Name.seq.text, .atom f.seq), (Name.ts.text, .str f.ts), (Name.event.text, .str f.event),
        (Name.scope.text, f.scope), (Name.data.text, f.data), (Name.prev.text, .str f.prev),
        (Name.hash.text, .str hash)] = f.withHash hash := by
    simp [Value.sortMembers, Name.text_le_iff, Name.rank, Fields.withHash]
  have hfields : List.Forall₂ (fun (e : PyStr × Py F) (m : PyStr × Value F) =>
      e.1 = m.1 ∧ valueOf env e.2 = some m.2)
      [(Name.seq.text, .atom f.seq), (Name.ts.text, .str (text now.text)),
        (Name.event.text, .str f.event), (Name.scope.text, scope), (Name.data.text, .dict data),
        (Name.prev.text, .str f.prev), (Name.hash.text, .str hash)]
      [(Name.seq.text, .atom f.seq), (Name.ts.text, .str f.ts), (Name.event.text, .str f.event),
        (Name.scope.text, f.scope), (Name.data.text, f.data), (Name.prev.text, .str f.prev),
        (Name.hash.text, .str hash)] := by
    rw [hts]
    exact .cons ⟨rfl, rfl⟩ (.cons ⟨rfl, rfl⟩ (.cons ⟨rfl, rfl⟩ (.cons ⟨rfl, hscope⟩
      (.cons ⟨rfl, hdata⟩ (.cons ⟨rfl, rfl⟩ (.cons ⟨rfl, rfl⟩ .nil))))))
  rw [← hsorted]
  exact valueOf_dict_str hfields

variable (env)

/-- The values of the record a call makes after `place`. -/
structure Written (place : Value F × PyStr) (call : Call F) (f : Fields F) : Prop where
  event : isEvent f.event = true
  data : valueOf env (call.data.getD (.dict [])) = some f.data
  prev : f.prev = place.2
  scope : f.scope = .atom .null ∨ ∃ s : Scope, f.scope = .str (text s.key)
  seq : plusOne env place.1 = some f.seq
  ts : f.ts = text call.now.text

/-- The hash of a record with these fields. -/
def hashOf (f : Fields F) : PyStr := hexdigest (env.sha256 (encoded env (.obj f.members)))

theorem checkCall_eq_ok {call : Call F} {event : PyStr} {data : List (Key F × Py F)}
    {scope : Py F} (h : checkCall call = .ok (event, data, scope)) :
    isEvent event = true ∧ call.data.getD (.dict []) = .dict data ∧
      ∃ v, valueOf env scope = some v ∧
        (v = .atom .null ∨ ∃ s : Scope, v = .str (text s.key)) := by
  unfold checkCall at h
  cases hevent : call.event with
  | str e =>
    rw [hevent] at h
    simp only at h
    split_ifs at h with hname
    cases hdata : call.data.getD (.dict []) with
    | dict d =>
      rw [hdata] at h
      cases hscope : call.scope with
      | none =>
        rw [hscope] at h
        cases h
        exact ⟨hname, rfl, .atom .null, rfl, .inl rfl⟩
      | scope s =>
        rw [hscope] at h
        cases h
        exact ⟨hname, rfl, .str (text s.key), rfl, .inr ⟨s, rfl⟩⟩
      | other =>
        rw [hscope] at h
        exact nomatch h
    | _ =>
      rw [hdata] at h
      exact nomatch h
  | _ =>
    rw [hevent] at h
    exact nomatch h

variable {env}

/-- What a line that `append` writes holds. -/
theorem exists_written_of_lineOf {place : Value F × PyStr} {call : Call F} {line : List UInt8}
    (h : lineOf env place call = .ok line) :
    ∃ f, Written env place call f ∧ line.length ≤ maxRecordBytes ∧
      line = encoded env (.obj (f.withHash (hashOf env f))) ++ [newline] := by
  unfold lineOf at h
  cases hcheck : checkCall call with
  | error e =>
    rw [hcheck] at h
    cases h
  | ok r =>
    obtain ⟨event, data, scope⟩ := r
    obtain ⟨hevent, hdata, v, hv, hscope⟩ := checkCall_eq_ok env hcheck
    rw [hcheck] at h
    cases hseq : plusOne env place.1 with
    | none =>
      rw [Except.bind] at h
      simp only at h
      rw [hseq] at h
      cases h
    | some seq =>
      rw [Except.bind] at h
      simp only at h
      rw [hseq] at h
      simp only at h
      cases hvalue : valueOf env (.dict data) with
      | none =>
        have hdigest : digest env (.dict (fieldsOf seq call.now event scope data place.2)) =
            none := by
          rw [digest, canon, valueOf]
          simp only [fieldsOf, itemsOf, hvalue, Option.bind_none, Option.map_none,
            Option.bind_fun_none]
        rw [hdigest] at h
        cases h
      | some t =>
        let f : Fields F := ⟨t, event, place.2, v, seq, text call.now.text⟩
        have hfields := valueOf_fieldsOf (f := f) rfl hv hvalue
        have hhash := valueOf_fieldsOf_hash (f := f) rfl hv hvalue
        have hdigest : digest env (.dict (fieldsOf seq call.now event scope data place.2)) =
            some (hashOf env f) := by
          rw [digest, canon, hfields]
          rfl
        have hcanon : canon env (.dict (fieldsOf seq call.now event scope data place.2 ++
            [(.str Name.hash.text, .str (hashOf env f))])) =
              some (encoded env (.obj (f.withHash (hashOf env f)))) := by
          rw [canon, hhash]
          rfl
        rw [hdigest] at h
        simp only at h
        rw [hcanon] at h
        simp only at h
        split_ifs at h with hsize
        cases h
        exact ⟨f, ⟨hevent, hdata ▸ hvalue, rfl, hscope, hseq, rfl⟩, not_lt.1 hsize, rfl⟩

theorem joined_of_ascii {s : PyStr} (h : isAsciiStr s = true) : PyStr.join s = s := by
  rw [PyStr.join_eq_self_iff]
  unfold PyStr.Joined
  induction s with
  | nil => exact .nil
  | cons c s ih =>
    rw [isAsciiStr, List.all_cons, Bool.and_eq_true, decide_eq_true_eq] at h
    refine List.isChain_cons.2 ⟨fun d _ hpair => ?_, ih h.2⟩
    simp only [PyStr.isHigh, Bool.and_eq_true, decide_eq_true_eq] at hpair
    omega

theorem join_collapse_obj {members : List (PyStr × Value F)}
    (h : (members.map fun m => PyStr.join m.1).Nodup) :
    (Value.obj members).join.collapse =
      .obj (members.map fun m => (PyStr.join m.1, m.2.join.collapse)) := by
  rw [Value.join, Value.map_obj, id, Value.collapse, Value.map_obj, List.map_map,
    Value.dictOf_eq_self]
  · rfl
  · rw [List.map_map]
    exact h

/-- The fields of the record as they are read back. -/
def Fields.reread (f : Fields F) : Fields F where
  data := f.data.join.collapse
  event := PyStr.join f.event
  prev := PyStr.join f.prev
  scope := f.scope.join.collapse
  seq := f.seq
  ts := PyStr.join f.ts

theorem reread_withHash (f : Fields F) {hash : PyStr} (hhash : PyStr.join hash = hash) :
    (Value.obj (f.withHash hash)).join.collapse = .obj (f.reread.withHash hash) := by
  rw [join_collapse_obj]
  · simp only [Fields.withHash, List.map_cons, List.map_nil, Value.join, Value.collapse,
      Value.map_str, Value.map_atom, hhash]
    rfl
  · have hnames : (f.withHash hash).map (fun m => PyStr.join m.1) =
        [Name.data, .event, .hash, .prev, .scope, .seq, .ts].map Name.text := rfl
    rw [hnames]
    exact List.Nodup.map Name.text_injective (by decide)

theorem ascii_hashOf (f : Fields F) : isAsciiStr (hashOf env f) = true := by
  rw [isAsciiStr, List.all_eq_true]
  intro c hc
  have h := isPrintable_iff.1 (plain_hexdigest _ c hc)
  rw [decide_eq_true_eq]
  omega

variable (env)

/-- Valid data: the call passes the checks and its record fits, at the end of this log. -/
def Valid (file : List UInt8) (call : Call F) : Prop :=
  ∃ line, lineOf env (place env file) call = .ok line

/-- What an append to a log of `n` records should do: one that returns leaves `n + 1` records, the
last the one returned, and one that raises leaves the file alone and open to valid data. -/
structure Meets (file : List UInt8) (n : ℕ) (call : Call F) (fate : Option ℕ) : Prop where
  returns : ∀ rec after, append env file call fate = (.ok rec, after) →
    (∃ hash, Accepts env after (n + 1) hash) ∧ (records env after).getLast? = some rec
  raises : ∀ e after, append env file call fate = (.error e, after) →
    after = file ∧
      ∀ later, Valid env file later → ∃ rec, (append env after later none).1 = .ok rec

/-- The names in each dictionary of the data, as the text has them and with surrogate pairs joined,
increase. -/
def Ordered (call : Call F) : Prop :=
  ∀ t, valueOf env (call.data.getD (.dict [])) = some t → t.join.Increasing

/-- When an append does what it should: the last line is no text in UTF-16 or UTF-32, a write that
fails puts nothing into the file, and the data of one that succeeds is ordered. -/
structure Sound (file : List UInt8) (n : ℕ) (call : Call F) (fate : Option ℕ) : Prop where
  readable : (∃ later, Valid env file later) → Readable file
  failed : Valid env file call → ∀ k ∈ fate, k = 0
  next : Valid env file call → fate = none →
    ∃ seq, plusOne env (place env file).1 = some seq ∧
      seqIs env (some (.atom seq)) (n + 1) = true
  ordered : Valid env file call → fate = none → Ordered env call

variable {env}

/-- The record of a line that was written. -/
theorem loads_line {place : Value F × PyStr} {call : Call F} {line : List UInt8}
    (h : lineOf env place call = .ok line) : ∃ f, Written env place call f ∧
      line.length ≤ maxRecordBytes ∧
        line = encoded env (.obj (f.withHash (hashOf env f))) ++ [newline] ∧
          loads env line = some (.obj (f.reread.withHash (hashOf env f))) := by
  obtain ⟨f, hwritten, hsize, hline⟩ := exists_written_of_lineOf h
  refine ⟨f, hwritten, hsize, hline, ?_⟩
  rw [hline, loads_encoded_newline, reread_withHash f (joined_of_ascii (ascii_hashOf f))]

theorem ascii_of_accepts {file : List UInt8} {n : ℕ} {hash : PyStr}
    (h : Accepts env file n hash) : isAsciiStr hash = true := by
  rw [accepts_iff] at h
  rcases List.eq_nil_or_concat (lines file) with hnil | ⟨ls, raw, hlines⟩
  · rw [hnil] at h
    obtain ⟨rfl, -⟩ := Prod.mk.inj (Option.some.inj h)
    rfl
  · rw [List.concat_eq_append] at hlines
    rw [hlines] at h
    obtain ⟨hash', m, rec, -, -, hrec⟩ := run_concat_iff.1 h
    exact hrec.ascii

variable (env)

variable {env}

namespace Sample

def now : Stamp := ⟨"2026-01-01T00:00:00.000000+00:00".toList, by decide⟩

/-- The canonical text of the first record, its hash apart, for an event `a` and data of this
text. -/
def body (data : String) : List UInt8 :=
  PyStr.encodeAscii (text ("\x7b\"data\":".toList ++ data.toList ++
    ",\"event\":\"a\",\"prev\":\"".toList) ++ genesis ++
      text "\",\"scope\":null,\"seq\":1,\"ts\":\"".toList ++ text now.text ++
        text "\"\x7d".toList)

/-- `hashlib.sha256` on the records of the examples. -/
def sha256 : List UInt8 → List UInt8 :=
  tableHash [
    (body "\x7b\"2\":0,\"10\":0\x7d",
      0x027e6cbe384c5d1a59ecd09c84362d79a7f708d2cc6358a632a58ebf06a172cd),
    (body "\x7b\"10\":0,\"2\":0\x7d",
      0x1de1ad7e14ce251e59373ee0646e1433580ac05cb2012ecc2799cf8ceb4d54f2),
    (body "\x7b\"a\":1\x7d",
      0x774b6cc3b3730a510dbe2b2257667bc761ed7e3b21b90eae37a16b6ba1458862),
    (body "\x7b\"a\":\"\\ud83d\\ude00\"\x7d",
      0x9d8427781091794e08638f068018b3fadf009cd766b64435eb05a18acf682a6d)]

def interpreter : AuditEnv Empty := .integers sha256

/-- `append("a", data)`. -/
def call (data : List (Key Empty × Py Empty)) : Call Empty :=
  ⟨.str (text "a".toList), some (.dict data), .none, now⟩

end Sample

end RagLeap.Security
