import Mathlib.Algebra.Order.BigOperators.Group.List
import RagLeap.Foundations.JsonCut
import RagLeap.Sandbox.Reader

/-!
# Listing a folder through the runner

`file_op` of the runner (`sandbox/runner.py`) runs the reader in a container and reads its answer
from the container's log. The answer passes three stages on its way. The reader encodes the text
for its standard output: names that are no UTF-8 hold lone surrogates, which a strict stream
refuses, and which `surrogateescape` writes as the bytes they stand for. The log keeps text, so such
a byte becomes U+FFFD. The runner takes the first `MAX_OUTPUT_BYTES` bytes, decodes them and reads
them as JSON.

The reader stops at `MAXN` entries but not at a number of bytes, so the listing of a readable
folder reaches the caller exactly when its text is encoded and fits (`list_delivered_iff`); one
hundred long names do not fit (`long_names_fail`).
-/

namespace RagLeap.Sandbox

open PyStr LinkTree JsonText

variable {F : Type}

/-! ## The container's output -/

/-- The error handler of the container's standard output. -/
inductive Handler
  | strict
  | surrogateescape
  deriving DecidableEq

/-- The surrogates that stand for a byte. -/
def isEscape (c : CodePoint) : Bool := 0xDC80 ≤ c.val && c.val ≤ 0xDCFF

/-- The stream can write the character. -/
def encodable (h : Handler) (c : CodePoint) : Bool :=
  !isSurrogate c || (h = .surrogateescape && isEscape c)

/-- What the log keeps of a character: a byte that is no UTF-8 is replaced. -/
def fromLog (c : CodePoint) : CodePoint := if isSurrogate c then replacement else c

/-- How the run of a container ends: by itself, stopped by the runner at its time limit or by the
kernel for its memory, or the engine refuses it. -/
inductive Ending
  | exited
  | stopped (stdout : PyStr) (exitCode : ℤ) (oom : Bool)
  | refused
  deriving DecidableEq

structure RunResult where
  exitCode : ℤ
  stdout : PyStr
  timedOut : Bool
  oom : Bool

/-- `MAX_OUTPUT_BYTES`. -/
def maxOutputBytes : ℕ := 16384

/-- The runner, as far as a file request needs it. -/
structure Runner (F : Type) where
  computerControl : Bool
  grants : List (PyStr × Container)
  interp : Interp F
  handler : Handler
  ending : Ending
  /-- `str(error)` of an error that is no string, unless it is falsy. -/
  errorText : Value F → Option PyStr

variable (r : Runner F)

/-- What the container writes to its standard output, and its exit code. A text that cannot be
encoded ends the script before any of it is written. -/
def output (reply : Reply) : PyStr × ℤ :=
  match reply.doc with
  | none => ([], 1)
  | some (t, code) =>
    let s := printRaw r.interp.floats t
    if s.all (encodable r.handler) then (s, code) else ([], 1)

/-- `_run_spec`; none where it raises. -/
def runSpec (reply : Reply) : Option RunResult :=
  match r.ending with
  | .exited =>
    let (s, code) := output r reply
    some ⟨code, decodeReplace ((encodeUtf8 (s.map fromLog)).take maxOutputBytes), false, false⟩
  | .stopped stdout exitCode oom => some ⟨exitCode, stdout, !oom, oom⟩
  | .refused => none

/-! ## The request -/

/-- What the caller gets: a status other than 200, a result, or an error with status 200. -/
inductive Answer (F : Type)
  | problem (status : ℕ) (error : String)
  | result (t : Value F)
  | failed (error : PyStr)

/-- The text of the `error` in a document, unless it is falsy. -/
def errorOf : Value F → Option PyStr
  | .str [] => none
  | .str s => some s
  | t => r.errorText t

/-- The message for a run without a result. -/
def failText (res : RunResult) (error : Option (Value F)) : PyStr :=
  let message :=
    if res.timedOut then lit "timed out"
    else if res.oom then lit "out of memory"
    else
      match error.bind (errorOf r) with
      | some message => message
      | none => lit "could not read (exit " ++ intText res.exitCode ++ [ch ')']
  message.take 200

/-- The answer to a run. -/
def answerOf (res : RunResult) : Answer F :=
  match parse r.interp.floats res.stdout with
  | some (.obj ms) =>
    if (ms.lookup (lit "error")).isNone ∧ res.exitCode = 0 ∧ res.timedOut = false ∧
        res.oom = false then .result (.obj ms)
    else .failed (failText r res (ms.lookup (lit "error")))
  | _ => .failed (failText r res none)

/-- The answer to a reply of the reader; an exception of the run is answered with status 500. -/
def replyTo (reply : Reply) : Answer F :=
  match runSpec r reply with
  | none => .problem 500 "sandbox error"
  | some res => answerOf r res

/-- `op in FILE_OPS`. -/
def fileOpOf (t : Value F) : Option FileOp :=
  match t with
  | .str s =>
    if s = lit "list" then some .list
    else if s = lit "read" then some .read
    else none
  | _ => none

/-- `file_op`. -/
def fileOp (payload : Value F) : Answer F :=
  if !r.computerControl then .problem 403 "computer control is off"
  else
    match payload with
    | .obj members =>
      match (members.lookup (lit "op")).bind fileOpOf with
      | none => .problem 400 "op must be one of: list, read"
      | some op =>
        match members.lookup (lit "grant") with
        | some (.str name) =>
          match (members.lookup (lit "path")).getD (.str []) with
          | .str rel =>
            match relProblem r.interp.lower rel (op = .list) with
            | some p => .problem 400 p.text
            | none =>
              match r.grants.lookup name with
              | none => .problem 404 "unknown or expired grant"
              | some c => replyTo r (reader r.interp c op rel)
          | _ => .problem 400 "path must be text"
        | _ => .problem 400 "grant must be a name"
    | _ => .problem 400 "body must be a JSON object"

/-- The request to list a path of a grant. -/
def listRequest (grant rel : PyStr) : Value F :=
  .obj [member "op" (str "list"), member "grant" (.str grant), member "path" (.str rel)]

/-! ## Readable folders -/

/-- The path leads to a folder that may be read, in the granted folder and without a protected
component, and whose entries are the ones given. -/
structure ReadableFolder (env : Interp F) (c : Container) (rel : PyStr)
    (entries : List DirEntry) : Prop where
  allowed : ∀ p ∈ parts rel, badPart env.lower p = false
  found : ∃ names es, resolveTarget env c ⟨false, base⟩ (parts rel) = some ⟨false, base ++ names⟩ ∧
    (∀ n ∈ names, denied env.lower n = false) ∧ Plain c.root (base ++ names) ∧
      lookup c.root (base ++ names) = some (.dir (some entries) es)

theorem comp_of_mem_parts {lower : PyStr → PyStr} {rel p : PyStr} (hp : p ∈ parts rel)
    (h : badPart lower p = false) : comp p = .name p := by
  obtain ⟨-, hkept⟩ := List.mem_filter.1 hp
  have hne : p ≠ [] ∧ p ≠ dot := of_decide_eq_true hkept
  have hup : p ≠ dotDot := fun he => by simp [badPart, he] at h
  rw [comp, if_neg hne.1, if_neg hne.2, if_neg hup]

/-- A folder named by its path, with no link on the way, is readable as it stands. -/
theorem ReadableFolder.of_plain {env : Interp F} {c : Container} {rel : PyStr}
    {entries : List DirEntry} (hallowed : ∀ p ∈ parts rel, badPart env.lower p = false)
    (hplain : Plain c.root (base ++ parts rel)) {es : List (PyStr × Tree)}
    (hfolder : lookup c.root (base ++ parts rel) = some (.dir (some entries) es)) :
    ReadableFolder env c rel entries where
  allowed := hallowed
  found := by
    refine ⟨parts rel, es, ?_, ?_, hplain, hfolder⟩
    · unfold resolveTarget
      split_ifs with hparts
      · rw [hparts, List.append_nil]
      · have hcomp : (parts rel).map comp = (parts rel).map .name :=
          List.map_congr_left fun p hp => comp_of_mem_parts hp (hallowed p hp)
        have htext : textOf base ++ (parts rel).map comp = textOf (base ++ parts rel) := by
          rw [hcomp]
          rfl
        dsimp only
        rw [htext, realpath_of_plain env.depth_pos (by simp [base]) hplain]
    · intro n hn
      have h := hallowed n hn
      rw [badPart, Bool.or_eq_false_iff] at h
      exact h.2

/-- What the reader shows of the entries. -/
def shown (env : Interp F) (entries : List DirEntry) : List Entry × Bool :=
  listEntries env.lower (sortEntries entries) []

/-- The reader lists a readable folder. -/
theorem ReadableFolder.reader_eq {env : Interp F} {c : Container} {rel : PyStr}
    {entries : List DirEntry} (h : ReadableFolder env c rel entries) :
    ∃ dir, reader env c .list rel =
      .listing dir (shown env entries).1 (shown env entries).2 := by
  obtain ⟨names, es, hresolve, hnames, hplain, hfolder⟩ := h.found
  have hbase : realpath c.root env.depth [.empty, .name (lit "data")] =
      some ⟨false, base⟩ := realpath_of_plain env.depth_pos (by simp [base]) c.plain_base
  have hallowed : (parts rel).any (badPart env.lower) = false := by
    rw [List.any_eq_false]
    intro p hp
    rw [h.allowed p hp]
    exact Bool.false_ne_true
  have hinside : ¬ ((⟨false, base ++ names⟩ : AbsPath PyStr) ≠ ⟨false, base⟩ ∧
      ¬ isBelow ⟨false, base⟩ ⟨false, base ++ names⟩ = true) := by
    rintro ⟨hne, hbelow⟩
    apply hbelow
    simp only [isBelow, Bool.and_eq_true, List.isPrefixOf_iff_prefix, decide_eq_true_eq]
    exact ⟨⟨rfl, List.prefix_append _ _⟩, hne⟩
  have hdenied : ((base ++ names).drop base.length).any (denied env.lower) = false := by
    rw [List.drop_left, List.any_eq_false]
    intro n hn
    rw [hnames n hn]
    exact Bool.false_ne_true
  have hstat : statTarget c ⟨false, base ++ names⟩ =
      some (base ++ names, .dir (some entries) es) := by
    rw [statTarget, openPath_of_lookup hplain hfolder, Option.bind_some, hfolder]
    rfl
  refine ⟨base ++ names, ?_⟩
  rw [reader, hbase]
  dsimp only
  rw [hallowed, if_neg Bool.false_ne_true, hresolve]
  dsimp only
  rw [if_neg hinside, hdenied, if_neg Bool.false_ne_true, perform, hstat]
  rfl

/-! ## What reaches the caller -/

/-- The entry as the log keeps its name. -/
def Entry.logged (e : Entry) : Entry := { e with name := e.name.map fromLog }

/-- The bytes of a listing in the log. -/
def logBytes (fl : Floats F) (l : List Entry × Bool) : List UInt8 :=
  encodeUtf8 (printRaw fl (listingDoc (l.1.map Entry.logged) l.2))

/-- The listing reaches the runner whole: the run ends by itself, the stream can write every name
shown, and the log's text fits. -/
def Delivers (entries : List DirEntry) : Prop :=
  r.ending = .exited ∧
    (∀ e ∈ (shown r.interp entries).1, ∀ c ∈ e.name, encodable r.handler c = true) ∧
      (logBytes r.interp.floats (shown r.interp entries)).length ≤ maxOutputBytes

theorem fromLog_of_lt {c : CodePoint} (h : c.val < 0xD800) : fromLog c = c := by
  have hc : isSurrogate c = false := by
    rw [← Bool.not_eq_true, isSurrogate_iff]
    omega
  rw [fromLog, hc, if_neg Bool.false_ne_true]

theorem fixesAscii_fromLog : FixesAscii fromLog := fun _ h => fromLog_of_lt (by omega)

theorem isSurrogate_fromLog (c : CodePoint) : isSurrogate (fromLog c) = false := by
  unfold fromLog
  split_ifs with h
  · decide
  · simpa using h

theorem le_fromLog {c : CodePoint} (h : 0x80 ≤ c.val) : 0x80 ≤ (fromLog c).val := by
  unfold fromLog
  split_ifs
  · decide
  · exact h

/-- The constants of the documents are ASCII. -/
theorem encodable_of_ascii (h : Handler) (c : CodePoint) (hc : c.val < 0x80) :
    encodable h c = true := by
  have : isSurrogate c = false := by
    rw [← Bool.not_eq_true, isSurrogate_iff]
    omega
  simp [encodable, this]

/-- The strings of the documents. -/
def docWords : List String :=
  ["op", "entries", "truncated", "list", "name", "type", "size", "dir", "file"]

theorem docWords_ascii {k : String} (hk : k ∈ docWords) : ∀ c ∈ lit k, c.val < 0x80 := by
  have hall : (docWords.all fun k => (lit k).all fun c => c.val < 0x80) = true := by decide
  intro c hc
  simpa using List.all_eq_true.1 (List.all_eq_true.1 hall k hk) c hc

theorem map_fromLog_lit : ∀ k ∈ docWords, (lit k).map fromLog = lit k := fun _ hk =>
  (List.map_congr_left fun c hc => fixesAscii_fromLog c (docWords_ascii hk c hc)).trans
    (List.map_id' _)

/-- The log keeps the document of an entry, but for its name. -/
theorem map_entryDoc (e : Entry) :
    (e.doc : Value F).map (List.map fromLog) id = e.logged.doc := by
  have hwords := map_fromLog_lit
  simp only [docWords, List.forall_mem_cons] at hwords
  obtain ⟨name, _ | size⟩ := e
  · simp [Entry.doc, Entry.logged, member, str, Value.map_obj, Value.map_str, hwords]
  · simp [Entry.doc, Entry.logged, member, str, Value.map_obj, Value.map_str, Value.map_atom,
      hwords]

/-- The log keeps the listing of the logged entries. -/
theorem map_listingDoc (entries : List Entry) (truncated : Bool) :
    (listingDoc entries truncated : Value F).map (List.map fromLog) id =
      listingDoc (entries.map Entry.logged) truncated := by
  have hwords := map_fromLog_lit
  simp only [docWords, List.forall_mem_cons] at hwords
  simp [listingDoc, member, str, Value.map_obj, Value.map_str, Value.map_arr, Value.map_atom,
    hwords, map_entryDoc]

theorem all_entryDoc {P : PyStr → Prop}
    (hP : ∀ k ∈ docWords, P (lit k)) (e : Entry) :
    Value.All P (fun _ => True) (e.doc : Value F) ↔ P e.name := by
  simp only [docWords, List.forall_mem_cons] at hP
  obtain ⟨name, _ | size⟩ := e
  · simp [Entry.doc, member, str, Value.all_obj, Value.all_str, hP]
  · have hatom : Value.All P (fun _ => True) (.atom (.int size) : Value F) := .atom _
    simp [Entry.doc, member, str, Value.all_obj, Value.all_str, hP, hatom]

/-- The stream can write a listing if it can write the names in it. -/
theorem all_encodable_iff (fl : Floats F) (h : Handler) (entries : List Entry)
    (truncated : Bool) :
    (printRaw fl (listingDoc entries truncated)).all (encodable h) = true ↔
      ∀ e ∈ entries, ∀ c ∈ e.name, encodable h c = true := by
  have hP : ∀ k ∈ docWords, ∀ c ∈ lit k, encodable h c = true := fun k hk c hc =>
    encodable_of_ascii h c (docWords_ascii hk c hc)
  have hentry := all_entryDoc (F := F) (P := fun s => ∀ c ∈ s, encodable h c = true) hP
  have hatom : Value.All (fun s => ∀ c ∈ s, encodable h c = true) (fun _ => True)
      (.atom (.bool truncated) : Value F) := .atom _
  have hword : ∀ k ∈ ["op", "entries", "truncated", "list"], ∀ c ∈ lit k,
      encodable h c = true := fun k hk => hP k (List.mem_append_left _ hk)
  simp only [List.forall_mem_cons] at hword
  obtain ⟨hop, hentries, htruncated, hlist, -⟩ := hword
  rw [List.all_eq_true, forall_mem_printRaw fl (encodable_of_ascii h)]
  simp only [listingDoc, member, str, Value.all_obj, Value.all_str, Value.all_arr,
    List.forall_mem_cons, List.forall_mem_map, hentry, hatom]
  constructor
  · rintro ⟨-, -, -, hnames, -⟩
    exact hnames
  · intro hnames
    exact ⟨trivial, ⟨hop, hentries, htruncated, by simp⟩, hlist, hnames, trivial, by simp⟩

/-- No member of a listing stands twice. -/
theorem distinct_listingDoc (entries : List Entry) (truncated : Bool) :
    (listingDoc entries truncated : Value F).Distinct := by
  have hatom : ∀ a : Atom F, (Value.atom a).Distinct := fun a => .atom a
  have hentry : ∀ e : Entry, (e.doc : Value F).Distinct := by
    rintro ⟨name, _ | size⟩
    · have hkeys : [lit "name", lit "type"].Nodup := by decide
      simp [Entry.doc, member, str, Value.Distinct, Value.all_obj, Value.all_str] at hkeys ⊢
      exact hkeys
    · have hkeys : [lit "name", lit "type", lit "size"].Nodup := by decide
      simpa [Entry.doc, member, str, Value.Distinct, Value.all_obj, Value.all_str, hatom]
        using hkeys
  have hkeys : [lit "op", lit "entries", lit "truncated"].Nodup := by decide
  simpa [listingDoc, member, str, Value.Distinct, Value.all_obj, Value.all_str, Value.all_arr,
    hatom, hentry] using hkeys

theorem collapse_listingDoc (entries : List Entry) (truncated : Bool) :
    (listingDoc entries truncated : Value F).collapse = listingDoc entries truncated :=
  Value.map_eq_self (distinct_listingDoc entries truncated) (fun _ _ => rfl) fun _ h =>
    Value.dictOf_eq_self h

theorem output_listing (dir : List PyStr) (entries : List Entry) (truncated : Bool) :
    output r (.listing dir entries truncated) =
      if ∀ e ∈ entries, ∀ c ∈ e.name, encodable r.handler c = true then
        (printRaw r.interp.floats (listingDoc entries truncated), 0) else ([], 1) := by
  have hall := all_encodable_iff r.interp.floats r.handler entries truncated
  simp only [output, Reply.doc]
  split_ifs with h₁ h₂ h₂
  · rfl
  · exact absurd (hall.1 h₁) h₂
  · exact absurd (hall.2 h₂) h₁
  · rfl

/-- The text of a listing in the log. -/
theorem map_fromLog_listing (fl : Floats F) (entries : List Entry) (truncated : Bool) :
    (printRaw fl (listingDoc entries truncated)).map fromLog =
      printRaw fl (listingDoc (entries.map Entry.logged) truncated) := by
  rw [printRaw_map fl fixesAscii_fromLog fun c => le_fromLog, map_listingDoc]

/-- What the runner reads of a listing in the log: the listing if its bytes fit, otherwise nothing
that is JSON. -/
theorem parse_cut_listing (fl : Floats F) (entries : List Entry) (truncated : Bool) :
    parse fl (cut maxOutputBytes (printRaw fl (listingDoc entries truncated))) =
      if (encodeUtf8 (printRaw fl (listingDoc entries truncated))).length ≤ maxOutputBytes then
        some (listingDoc entries truncated) else none := by
  obtain ⟨hlen, hcut⟩ | ⟨hlen, p, q, htext, hq, hcut⟩ :=
    cut_cases maxOutputBytes (printRaw fl (listingDoc entries truncated))
  · rw [if_pos hlen, hcut, parse_printRaw, collapse_listingDoc]
  · have hpunct : punctuation replacement = none := by decide
    have hp : p ≠ [] := by
      rintro rfl
      -- the first byte fits
      rw [listingDoc, printRaw, List.cons_append, cut, if_pos (by decide)] at hcut
      rcases hcut with hcut | hcut
      · cases hcut
      · exact absurd (List.cons.inj hcut).1 (by decide)
    have hnone := parse_cut_eq_none fl hpunct htext hp hq
    rw [if_neg (by omega)]
    rcases hcut with hcut | hcut
    · rw [hcut, hnone.1]
    · rw [hcut, hnone.2]

/-- The answer to a listing that was run. -/
theorem answerOf_listing {res : RunResult} {entries : List Entry} {truncated : Bool}
    (h : parse r.interp.floats res.stdout = some (listingDoc entries truncated))
    (hcode : res.exitCode = 0) (htime : res.timedOut = false) (hoom : res.oom = false) :
    answerOf r res = .result (listingDoc entries truncated) := by
  have herror : ([member "op" (str "list"), member "entries" (.arr (entries.map Entry.doc)),
      member "truncated" (.atom (.bool truncated))] : List (PyStr × Value F)).lookup
        (lit "error") = none := rfl
  rw [answerOf, h, listingDoc]
  dsimp only
  rw [herror, if_pos ⟨rfl, hcode, htime, hoom⟩]

theorem not_result_of_parse {res : RunResult} (h : parse r.interp.floats res.stdout = none)
    (t : Value F) : answerOf r res ≠ .result t := by
  rw [answerOf, h]
  exact nofun

theorem not_result_of_flags {res : RunResult} (h : ¬ (res.timedOut = false ∧ res.oom = false))
    (t : Value F) : answerOf r res ≠ .result t := by
  unfold answerOf
  split
  · rw [if_neg fun hok => h hok.2.2]
    exact nofun
  · exact nofun

theorem replyTo_listing_of_exited (hend : r.ending = .exited) (dir : List PyStr)
    (entries : List Entry) (truncated : Bool) :
    replyTo r (.listing dir entries truncated) =
      answerOf r ⟨(output r (.listing dir entries truncated)).2,
        decodeReplace ((encodeUtf8 ((output r (.listing dir entries truncated)).1.map
          fromLog)).take maxOutputBytes), false, false⟩ := by
  rw [replyTo, runSpec, hend]

/-- What was written reaches the runner as far as it fits. -/
theorem decodeReplace_log (s : PyStr) :
    decodeReplace ((encodeUtf8 (s.map fromLog)).take maxOutputBytes) =
      cut maxOutputBytes (s.map fromLog) := by
  apply decodeReplace_take
  intro c hc
  obtain ⟨d, -, rfl⟩ := List.mem_map.1 hc
  exact isSurrogate_fromLog d

/-- The answer to a listing: the listing, or no result at all. -/
theorem replyTo_listing (dir : List PyStr) (entries : List Entry) (truncated : Bool) :
    (r.ending = .exited ∧ (∀ e ∈ entries, ∀ c ∈ e.name, encodable r.handler c = true) ∧
      (logBytes r.interp.floats (entries, truncated)).length ≤ maxOutputBytes ∧
        replyTo r (.listing dir entries truncated) =
          .result (listingDoc (entries.map Entry.logged) truncated)) ∨
    (¬ (r.ending = .exited ∧ (∀ e ∈ entries, ∀ c ∈ e.name, encodable r.handler c = true) ∧
      (logBytes r.interp.floats (entries, truncated)).length ≤ maxOutputBytes) ∧
        ∀ t, replyTo r (.listing dir entries truncated) ≠ .result t) := by
  cases hend : r.ending with
  | exited =>
    have hout := output_listing r dir entries truncated
    rw [replyTo_listing_of_exited r hend, decodeReplace_log]
    by_cases hnames : ∀ e ∈ entries, ∀ c ∈ e.name, encodable r.handler c = true
    · rw [if_pos hnames] at hout
      have hparse : parse r.interp.floats (cut maxOutputBytes
          ((printRaw r.interp.floats (listingDoc entries truncated)).map fromLog)) =
            if (logBytes r.interp.floats (entries, truncated)).length ≤ maxOutputBytes then
              some (listingDoc (entries.map Entry.logged) truncated) else none := by
        rw [map_fromLog_listing]
        exact parse_cut_listing r.interp.floats (entries.map Entry.logged) truncated
      rw [hout]
      by_cases hlen : (logBytes r.interp.floats (entries, truncated)).length ≤ maxOutputBytes
      · rw [if_pos hlen] at hparse
        exact .inl ⟨rfl, hnames, hlen, answerOf_listing r hparse rfl rfl rfl⟩
      · rw [if_neg hlen] at hparse
        exact .inr ⟨fun h => hlen h.2.2, not_result_of_parse r hparse⟩
    · rw [if_neg hnames] at hout
      rw [hout]
      exact .inr ⟨fun h => hnames h.2.1, not_result_of_parse r rfl⟩
  | stopped stdout exitCode oom =>
    refine .inr ⟨fun h => (nomatch h.1), fun t => ?_⟩
    rw [replyTo, runSpec, hend]
    apply not_result_of_flags
    cases oom <;> simp
  | refused =>
    refine .inr ⟨fun h => (nomatch h.1), fun t => ?_⟩
    rw [replyTo, runSpec, hend]
    exact nofun

/-- A well-formed request runs the reader on the folder of the grant. -/
theorem fileOp_listRequest {grant rel : PyStr} {c : Container} (hon : r.computerControl = true)
    (hgrant : r.grants.lookup grant = some c)
    (hrel : relProblem r.interp.lower rel true = none) :
    fileOp r (listRequest grant rel) = replyTo r (reader r.interp c .list rel) := by
  have hop : ([member "op" (str "list"), member "grant" (.str grant), member "path" (.str rel)] :
      List (PyStr × Value F)).lookup (lit "op") = some (str "list") := rfl
  have hname : ([member "op" (str "list"), member "grant" (.str grant),
      member "path" (.str rel)] : List (PyStr × Value F)).lookup (lit "grant") =
        some (.str grant) := rfl
  have hpath : ([member "op" (str "list"), member "grant" (.str grant),
      member "path" (.str rel)] : List (PyStr × Value F)).lookup (lit "path") =
        some (.str rel) := rfl
  have hlist : fileOpOf (str "list" : Value F) = some .list := rfl
  unfold fileOp listRequest
  simp only [hon, Bool.not_true, Bool.false_eq_true, if_false, hop, hname, hpath, hlist,
    Option.bind_some, Option.getD_some, decide_true, hrel, hgrant]

/-- **A readable folder is listed** exactly when the run ends by itself, the container's stream can
write the names shown, and the listing fits into the bytes the runner keeps. -/
theorem list_delivered_iff {grant rel : PyStr} {c : Container} {entries : List DirEntry}
    (hon : r.computerControl = true) (hgrant : r.grants.lookup grant = some c)
    (hrel : relProblem r.interp.lower rel true = none)
    (hfolder : ReadableFolder r.interp c rel entries) :
    ((∃ t, fileOp r (listRequest grant rel) = .result t) ↔ Delivers r entries) ∧
      (Delivers r entries → fileOp r (listRequest grant rel) =
        .result (listingDoc ((shown r.interp entries).1.map Entry.logged)
          (shown r.interp entries).2)) := by
  obtain ⟨dir, hreader⟩ := hfolder.reader_eq
  rw [fileOp_listRequest r hon hgrant hrel, hreader]
  obtain ⟨hend, hnames, hlen, hresult⟩ | ⟨hnot, hnone⟩ :=
    replyTo_listing r dir (shown r.interp entries).1 (shown r.interp entries).2
  · exact ⟨⟨fun _ => ⟨hend, hnames, hlen⟩, fun _ => ⟨_, hresult⟩⟩, fun _ => hresult⟩
  · exact ⟨⟨fun ⟨t, ht⟩ => absurd ht (hnone t), fun h => absurd h hnot⟩, fun h => absurd h hnot⟩

/-! ## Long names -/

theorem length_escapeRaw_le (c : CodePoint) :
    (encodeChar c).length ≤ (encodeUtf8 (escapeRaw c)).length := by
  unfold escapeRaw
  cases hshort : shortEscapes.find? fun e => e.2 = c with
  | some e =>
    obtain ⟨hmem, rfl⟩ := mem_shortEscapes hshort
    have hone : (encodeChar e.2).length = 1 := by
      have hlow := (unescape_letter hmem).2.2.2
      rw [encodeChar, if_pos hlow, List.length_singleton]
    have hpos := length_encodeChar_pos e.1
    simp only [encodeUtf8, List.flatMap_cons, List.length_append]
    omega
  | none =>
    simp only
    split_ifs with hlow
    · have hone : (encodeChar c).length = 1 := by
        rw [encodeChar, if_pos (by omega), List.length_singleton]
      have hpos := length_encodeChar_pos (ch '\\')
      simp only [encodeUtf8, escapeUnit, List.flatMap_cons, List.length_append]
      omega
    · simp [encodeUtf8]

theorem length_quoteRaw_le (s : PyStr) :
    (encodeUtf8 s).length ≤ (encodeUtf8 (quoteRaw s)).length := by
  have hbody : (encodeUtf8 s).length ≤ (encodeUtf8 (s.flatMap escapeRaw)).length := by
    induction s with
    | nil => exact le_rfl
    | cons c s ih =>
      have hc := length_escapeRaw_le c
      rw [encodeUtf8] at ih
      simp only [encodeUtf8, List.flatMap_cons, List.flatMap_append, List.length_append] at hc ih ⊢
      omega
  simp only [quoteRaw, encodeUtf8, List.flatMap_cons, List.flatMap_append, List.length_append,
    List.cons_append] at hbody ⊢
  omega

theorem length_commaSep_le (l : List PyStr) :
    (l.map fun s => (encodeUtf8 s).length).sum ≤ (encodeUtf8 (commaSep l)).length := by
  unfold commaSep
  induction l with
  | nil => exact Nat.zero_le _
  | cons s l ih =>
    rcases eq_or_ne l [] with rfl | hl
    · simp
    · rw [List.intercalate_cons_of_ne_nil hl, List.map_cons, List.sum_cons]
      simp only [encodeUtf8, List.flatMap_append, List.length_append] at ih ⊢
      omega

theorem length_arr_le (fl : Floats F) (items : List (Value F)) :
    (items.map fun t => (encodeUtf8 (printRaw fl t)).length).sum ≤
      (encodeUtf8 (printRaw fl (.arr items))).length := by
  have hsep := length_commaSep_le (items.map (printRaw fl))
  rw [List.map_map] at hsep
  rw [printRaw, printRawItems_eq]
  simp only [encodeUtf8, List.cons_append, List.flatMap_cons, List.flatMap_append,
    List.length_append] at hsep ⊢
  exact le_add_left (le_add_right hsep)

theorem length_obj_le (fl : Floats F) {members : List (PyStr × Value F)} {m : PyStr × Value F}
    (hm : m ∈ members) : (encodeUtf8 (printRaw fl m.2)).length ≤
      (encodeUtf8 (printRaw fl (.obj members))).length := by
  have hsep := length_commaSep_le (members.map fun m =>
    quoteRaw m.1 ++ ch ':' :: ch ' ' :: printRaw fl m.2)
  have hmem := List.le_sum_of_mem (List.mem_map_of_mem (f := fun s => (encodeUtf8 s).length)
    (List.mem_map_of_mem (f := fun m : PyStr × Value F =>
      quoteRaw m.1 ++ ch ':' :: ch ' ' :: printRaw fl m.2) hm))
  rw [printRaw, printRawMembers_eq]
  simp only [encodeUtf8, List.cons_append, List.flatMap_cons, List.flatMap_append,
    List.length_append] at hsep hmem ⊢
  omega

/-- A listing takes at least the bytes of the names in it. -/
theorem length_listing_le (fl : Floats F) (entries : List Entry) (truncated : Bool) :
    (entries.map fun e => (encodeUtf8 e.name).length).sum ≤
      (encodeUtf8 (printRaw fl (listingDoc entries truncated))).length := by
  have hentry : ∀ e : Entry, (encodeUtf8 e.name).length ≤
      (encodeUtf8 (printRaw fl (e.doc : Value F))).length := by
    intro e
    have hmem : ∃ members, (e.doc : Value F) = .obj members ∧
        member "name" (.str e.name) ∈ members := by
      obtain ⟨name, _ | size⟩ := e
      · exact ⟨_, rfl, List.mem_cons_self⟩
      · exact ⟨_, rfl, List.mem_cons_self⟩
    obtain ⟨members, hdoc, hname⟩ := hmem
    have hquote := length_obj_le fl hname
    rw [hdoc]
    rw [member, printRaw] at hquote
    exact (length_quoteRaw_le e.name).trans hquote
  calc (entries.map fun e => (encodeUtf8 e.name).length).sum
      ≤ (entries.map fun e => (encodeUtf8 (printRaw fl (e.doc : Value F))).length).sum :=
        List.sum_le_sum fun e _ => hentry e
    _ = ((entries.map Entry.doc).map fun t : Value F =>
        (encodeUtf8 (printRaw fl t)).length).sum := by rw [List.map_map]; rfl
    _ ≤ (encodeUtf8 (printRaw fl (.arr (entries.map Entry.doc)))).length := length_arr_le fl _
    _ ≤ (encodeUtf8 (printRaw fl (listingDoc entries truncated))).length :=
        length_obj_le fl (m := member "entries" (.arr (entries.map Entry.doc))) (by simp)

/-- A container with a folder of these entries at `/data`. -/
def folder (entries : List DirEntry) : Container where
  root := .dir none [(lit "data", .dir (some entries) [])]
  data_dir := ⟨some entries, [], rfl⟩

/-- A runner with one grant, in an image whose standard output escapes surrogates. -/
def plainRunner (entries : List DirEntry) : Runner Empty where
  computerControl := true
  grants := [(lit "docs", folder entries)]
  interp := plainInterp
  handler := .surrogateescape
  ending := .exited
  errorText _ := none

theorem readable_folder (entries : List DirEntry) :
    ReadableFolder plainInterp (folder entries) [] entries := by
  have hparts : parts [] = [] := by decide
  apply ReadableFolder.of_plain
  · rw [hparts]
    exact fun _ h => nomatch h
  · rw [hparts, List.append_nil]
    exact (folder entries).plain_base
  · rw [hparts]
    rfl

theorem list_delivered_iff_one :
    fileOp (plainRunner [⟨lit "notes", .file (some 2)⟩]) (listRequest (lit "docs") []) =
      .result (listingDoc ((shown plainInterp [⟨lit "notes", .file (some 2)⟩]).1.map Entry.logged)
        (shown plainInterp [⟨lit "notes", .file (some 2)⟩]).2) := by
  have hnames : ∀ e ∈ (shown plainInterp [⟨lit "notes", .file (some 2)⟩]).1, ∀ c ∈ e.name,
      encodable .surrogateescape c = true := by
    rw [← all_encodable_iff plainInterp.floats _ _ true]
    decide
  exact (list_delivered_iff (plainRunner [⟨lit "notes", .file (some 2)⟩]) rfl rfl
    (by decide) (readable_folder _)).2 ⟨rfl, hnames, by decide⟩

theorem fileOp_plainRunner (entries : List DirEntry) :
    fileOp (plainRunner entries) (listRequest (lit "docs") []) =
      replyTo (plainRunner entries) (reader plainInterp (folder entries) .list []) :=
  fileOp_listRequest _ rfl rfl (if_pos rfl)

/-- A folder whose shown names alone take more than the runner keeps is not listed. -/
theorem not_listed_of_long {entries : List DirEntry} (h : maxOutputBytes <
    (((shown plainInterp entries).1.map Entry.logged).map fun e =>
      (encodeUtf8 e.name).length).sum) :
    ¬ ∃ t, fileOp (plainRunner entries) (listRequest (lit "docs") []) = .result t := by
  rintro ⟨t, ht⟩
  obtain ⟨dir, hreader⟩ := (readable_folder entries).reader_eq
  rw [fileOp_plainRunner, hreader] at ht
  obtain ⟨-, -, hfits, -⟩ | ⟨-, hnone⟩ := replyTo_listing (plainRunner entries) dir
    (shown plainInterp entries).1 (shown plainInterp entries).2
  · have hlen := h.trans_le (length_listing_le plainInterp.floats
      ((shown plainInterp entries).1.map Entry.logged) (shown plainInterp entries).2)
    exact absurd hfits (not_le.2 hlen)
  · exact hnone t ht

/-- Seventy folders with names of 251 bytes. -/
def longNames : List DirEntry :=
  (List.range 70).map fun i => ⟨point (0x4E00 + i) :: List.replicate 62 (point 0x1F4C4), .dir⟩

/-- The folder is readable, and yields a read error. -/
theorem long_names_fail :
    ReadableFolder plainInterp (folder longNames) [] longNames ∧
      ¬ ∃ t, fileOp (plainRunner longNames) (listRequest (lit "docs") []) = .result t :=
  ⟨readable_folder longNames, not_listed_of_long (by decide +kernel)⟩

end RagLeap.Sandbox
