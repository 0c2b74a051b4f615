import RagLeap.Foundations.JsonText
import RagLeap.Foundations.Split
import RagLeap.Foundations.Substitution
import RagLeap.Foundations.Utf8
import RagLeap.Integrations.Mcp

/-!
# A response read from an event stream

A server may answer with an event stream. `sseFind` looks in the bytes of one for the response to a
request, and `readLoop` reads the stream and stops as soon as an event that is complete has it. The
bytes read so far are decoded, their newlines unified and the text split into events, so each read
starts over on a prefix of the stream: it may end inside a character, between the two characters of
a newline, or inside the blank line after an event.

More bytes leave all events of a prefix but the last as they are (`events_append`), so what is found
in these is what the whole stream gives (`readLoop_same`).
-/

namespace RagLeap.Integrations

open JsonText

variable {F : Type}

/-- What `json.loads` raises: an error that is a `ValueError`, or another one. -/
inductive LoadError
  | valueError
  | other

/-- The interpreter's JSON: its floats, their equality with integers, and the texts that exceed one
of its limits, with what it raises for these. -/
structure Json (F : Type) where
  floats : Floats F
  isInt : F → ℤ → Bool
  limit : PyStr → Option LoadError

variable (json : Json F)

/-- `json.loads(s)`. -/
def Json.loads (s : PyStr) : Except LoadError (Value F) :=
  match json.limit s with
  | some e => .error e
  | none =>
    match parse json.floats s with
    | some v => .ok v
    | none => .error .valueError

/-- `v == n`; `True` and `1.0` are equal to `1`. -/
def Json.equalsInt (n : ℤ) : Option (Value F) → Bool
  | some (.atom (.int m)) => m = n
  | some (.atom (.bool b)) => (if b then 1 else 0) = n
  | some (.atom (.float (.finite x))) => json.isInt x n
  | _ => false

/-- The value is a JSON-RPC response to the request. -/
def Json.answers (rpcId : ℤ) (obj : Value F) : Bool :=
  json.equalsInt rpcId (field obj (lit "id")) &&
    ((field obj (lit "result")).isSome || (field obj (lit "error")).isSome)

/-! ## The events of a stream -/

def LF : CodePoint := ch '\n'

def CR : CodePoint := ch '\r'

/-- `s.replace("\r\n", "\n").replace("\r", "\n")`. -/
def newlines (s : PyStr) : PyStr := substitute [CR] [LF] (substitute [CR, LF] [LF] s)

/-- The events of the bytes; without `final` the last one, possibly incomplete, is left out. -/
def events (data : List UInt8) (final : Bool) : List PyStr :=
  let chunks := split [LF, LF] (newlines (PyStr.decodeReplace data))
  if final then chunks else chunks.dropLast

/-- The data of the lines of an event. -/
def dataOf (chunk : PyStr) : List PyStr :=
  (split [LF] chunk).filterMap fun line =>
    if lit "data:" <+: line then
      let value := line.drop 5
      some (if [ch ' '] <+: value then value.drop 1 else value)
    else none

/-- The response in an event. -/
def responseIn (rpcId : ℤ) (chunk : PyStr) : Except LoadError (Option (Value F)) :=
  match dataOf chunk with
  | [] => .ok none
  | parts =>
    match json.loads (joinLines parts) with
    | .ok obj => .ok (if json.answers rpcId obj then some obj else none)
    | .error .valueError => .ok none
    | .error .other => .error .other

/-- The first response among the events. -/
def findIn (rpcId : ℤ) : List PyStr → Except LoadError (Option (Value F))
  | [] => .ok none
  | chunk :: chunks =>
    match responseIn json rpcId chunk with
    | .ok none => findIn rpcId chunks
    | found => found

/-- `_sse_find`. -/
def sseFind (data : List UInt8) (rpcId : ℤ) (final : Bool) : Except LoadError (Option (Value F)) :=
  findIn json rpcId (events data final)

def EVENT_STREAM : PyStr := lit "text/event-stream"

/-- `_rpc_from_response`. -/
def rpcFromResponse (contentType : PyStr) (body : List UInt8) (rpcId : ℤ) :
    Except Raised (Value F) :=
  let found : Except LoadError (Option (Value F)) :=
    if contentType = EVENT_STREAM then sseFind json body rpcId true
    else if contentType = lit "application/json" then
      match (PyStr.decode body).map json.loads with
      | some (.ok obj) => .ok (if json.answers rpcId obj then some obj else none)
      | some (.error .other) => .error .other
      | _ => .ok none
    else .ok none
  match found with
  | .ok (some obj) => .ok obj
  | .ok none => .error (.failure .badResponse [])
  | .error _ => .error .other

/-! ## Reading -/

inductive TransportError
  | tooLarge
  | deadline
  | io

/-- What one `read1` returns, and whether the time is over then. -/
structure Read where
  chunk : List UInt8
  late : Bool

/-- The bytes of the reads up to the empty one that ends the stream. -/
def streamOf : List Read → List UInt8
  | [] => []
  | r :: reads => if r.chunk = [] then [] else r.chunk ++ streamOf reads

/-- The read loop of `https_post`: the bytes, and whether it was stopped. -/
def readLoop (maxBytes : ℕ) (stop : List UInt8 → Except LoadError Bool) (buf : List UInt8) :
    List Read → Except TransportError (List UInt8 × Bool)
  | [] => .ok (buf, false)
  | r :: reads =>
    if r.chunk = [] then .ok (buf, false)
    else if maxBytes < (buf ++ r.chunk).length then .error .tooLarge
    else if r.late then .error .deadline
    else
      match stop (buf ++ r.chunk) with
      | .error _ => .error .io
      | .ok true => .ok (buf ++ r.chunk, true)
      | .ok false => readLoop maxBytes stop (buf ++ r.chunk) reads

/-- `stop` of `_post`. -/
def stopOn (rpcId : ℤ) (buf : List UInt8) : Except LoadError Bool :=
  (sseFind json buf rpcId false).map Option.isSome

/-! ## Newlines -/

/-- Newlines are unified in two parts, where the cut splits none. -/
theorem newlines_append {a b : PyStr} (h : ¬ ([CR] <:+ a ∧ [LF] <+: b)) :
    newlines (a ++ b) = newlines a ++ newlines b := by
  have hpair : ∀ c d, a ++ b = c ++ [CR, LF] ++ d → c.length < a.length →
      c.length + [CR, LF].length ≤ a.length := by
    intro c d heq hlt
    by_contra hle
    rw [List.append_assoc] at heq
    obtain ⟨m, hm⟩ := exists_append_of_append_eq heq.symm (by omega)
    have hlen := congrArg List.length hm
    simp only [List.length_append, List.length_cons, List.length_nil] at hlen hle
    obtain ⟨x, rfl⟩ := List.length_eq_one_iff.1 (show m.length = 1 by omega)
    rw [hm, List.append_assoc, List.append_cancel_left_eq] at heq
    obtain ⟨rfl, hb⟩ := List.cons_eq_cons.1 heq
    exact h ⟨⟨c, hm.symm⟩, ⟨d, hb.symm⟩⟩
  rw [newlines, substitute_append (by simp) hpair, substitute_append (by simp)]
  · rfl
  · intro c d heq hlt
    rw [List.length_singleton]
    omega

theorem LF_ne_CR : LF ≠ CR := by decide

/-- **Characters that come later leave the newlines**: a line feed right after a carriage return
adds nothing. -/
theorem exists_newlines_append (a b : PyStr) : ∃ w, newlines (a ++ b) = newlines a ++ w := by
  by_cases h : [CR] <:+ a ∧ [LF] <+: b
  · obtain ⟨⟨a, rfl⟩, ⟨b, rfl⟩⟩ := h
    have hafter : newlines (a ++ [CR, LF] ++ b) = newlines (a ++ [CR, LF]) ++ newlines b := by
      refine newlines_append fun h => ?_
      obtain ⟨t, ht⟩ := h.1
      have hlast := congrArg List.getLast? ht
      simp [LF_ne_CR.symm] at hlast
    have hpair : newlines (a ++ [CR, LF]) = newlines a ++ [LF] :=
      newlines_append fun h => LF_ne_CR (List.cons_prefix_cons.1 h.2).1
    have hone : newlines (a ++ [CR]) = newlines a ++ [LF] :=
      newlines_append fun h => LF_ne_CR (List.cons_prefix_cons.1 h.2).1
    refine ⟨newlines b, ?_⟩
    rw [hone, ← hpair, ← hafter]
    simp
  · exact ⟨newlines b, newlines_append h⟩

/-! ## The events of a prefix -/

/-- What bytes decode to, up to a character that is begun. -/
theorem decodeReplace_append (a : List UInt8) :
    ∃ s : PyStr, (PyStr.decodeReplace a = s ∨ PyStr.decodeReplace a = s ++ [PyStr.replacement]) ∧
      ∀ b, ∃ t, PyStr.decodeReplace (a ++ b) = s ++ t := by
  obtain ⟨s, q, h⟩ := PyStr.decodeFrom_append none a
  refine ⟨s, ?_, fun b => ⟨_, h b⟩⟩
  have hnil := h []
  rw [List.append_nil] at hnil
  cases q with
  | none => exact .inl (hnil.trans (List.append_nil s))
  | some q => exact .inr hnil

/-- **More bytes leave every event but the last.** -/
theorem events_append (data more : List UInt8) :
    ∃ rest, rest ≠ [] ∧ events (data ++ more) true = events data false ++ rest := by
  obtain ⟨s, hdata, hmore⟩ := decodeReplace_append data
  obtain ⟨t, ht⟩ := hmore more
  obtain ⟨w, hw⟩ := exists_newlines_append s t
  obtain ⟨rest, hrest, hsplit⟩ := split_append_left [LF, LF] (newlines s) w
  have hsame : events data false = (split [LF, LF] (newlines s)).dropLast := by
    change (split [LF, LF] (newlines (PyStr.decodeReplace data))).dropLast = _
    rcases hdata with hdata | hdata
    · rw [hdata]
    · -- A character that is begun is read as a replacement character, in the last event.
      have hone : newlines (s ++ [PyStr.replacement]) = newlines s ++ [PyStr.replacement] :=
        newlines_append fun h => absurd (List.cons_prefix_cons.1 h.2).1 (by decide)
      rw [hdata, hone, dropLast_split_concat (by simp) (by decide)]
  refine ⟨rest, hrest, ?_⟩
  change split [LF, LF] (newlines (PyStr.decodeReplace (data ++ more))) = _
  rw [ht, hw, hsplit, hsame]

/-- The events that are complete in a prefix are so in the stream. -/
theorem events_prefix (data more : List UInt8) :
    events data false <+: events (data ++ more) false := by
  obtain ⟨rest, hrest, h⟩ := events_append data more
  change _ <+: (events (data ++ more) true).dropLast
  rw [h, List.dropLast_append_of_ne_nil hrest]
  exact List.prefix_append _ _

/-! ## The first response -/

theorem findIn_append (rpcId : ℤ) (l m : List PyStr) :
    findIn json rpcId (l ++ m) =
      match findIn json rpcId l with
      | .ok none => findIn json rpcId m
      | found => found := by
  induction l with
  | nil => rfl
  | cons chunk l ih =>
    rw [List.cons_append, findIn, findIn]
    rcases responseIn json rpcId chunk with e | _ | obj
    · rfl
    · exact ih
    · rfl

/-- The event the response was found in. -/
theorem exists_of_findIn {rpcId : ℤ} {l : List PyStr} {obj : Value F}
    (h : findIn json rpcId l = .ok (some obj)) :
    ∃ before event after, l = before ++ event :: after ∧ findIn json rpcId before = .ok none ∧
      responseIn json rpcId event = .ok (some obj) := by
  induction l with
  | nil => exact nomatch Except.ok.inj h
  | cons chunk l ih =>
    rw [findIn] at h
    cases hchunk : responseIn json rpcId chunk with
    | error e =>
      rw [hchunk] at h
      exact nomatch h
    | ok found =>
      rw [hchunk] at h
      cases found with
      | none =>
        obtain ⟨before, event, after, rfl, hbefore, hevent⟩ := ih h
        refine ⟨chunk :: before, event, after, rfl, ?_, hevent⟩
        rw [findIn, hchunk]
        exact hbefore
      | some found =>
        obtain rfl : found = obj := Option.some.inj (Except.ok.inj h)
        exact ⟨[], chunk, l, rfl, rfl, hchunk⟩

/-- **What is found in a prefix is what the stream gives.** -/
theorem sseFind_append {data : List UInt8} {rpcId : ℤ}
    (h : sseFind json data rpcId false ≠ .ok none) (more : List UInt8) :
    sseFind json (data ++ more) rpcId true = sseFind json data rpcId false := by
  obtain ⟨rest, -, hrest⟩ := events_append data more
  rw [sseFind, hrest, findIn_append]
  rw [sseFind] at h ⊢
  cases hfound : findIn json rpcId (events data false) with
  | error e => rfl
  | ok found =>
    cases found with
    | none => exact absurd hfound h
    | some obj => rfl

/-- The event is the first one of the stream with a response, and complete in the prefix: a blank
line ends it there, too. -/
structure Complete (rpcId : ℤ) (data stream : List UInt8) (obj : Value F) (before : List PyStr)
    (event : PyStr) : Prop where
  none_before : findIn json rpcId before = .ok none
  found : responseIn json rpcId event = .ok (some obj)
  stream_eq : ∃ after, after ≠ [] ∧ events stream true = before ++ event :: after
  data_eq : ∃ rest, newlines (PyStr.decodeReplace data) =
    joinSep [LF, LF] (before ++ [event]) ++ [LF, LF] ++ rest

/-- **A match in a prefix is one in a complete event.** -/
theorem exists_complete {data : List UInt8} {rpcId : ℤ} {obj : Value F}
    (h : sseFind json data rpcId false = .ok (some obj)) (more : List UInt8) :
    ∃ before event, Complete json rpcId data (data ++ more) obj before event := by
  obtain ⟨before, event, after, hsplit, hnone, hfound⟩ := exists_of_findIn json h
  obtain ⟨rest, hrest, hstream⟩ := events_append data more
  have hprefix : before ++ [event] <+: events data false := by
    rw [hsplit]
    exact ⟨after, by simp⟩
  refine ⟨before, event, hnone, hfound, ⟨after ++ rest, by simp [hrest], ?_⟩,
    exists_of_prefix_dropLast (by simp) (by simp) hprefix⟩
  rw [hstream, hsplit, List.append_assoc, List.cons_append]

/-! ## The loop -/

section Loop

variable {maxBytes : ℕ} {stop : List UInt8 → Except LoadError Bool}

/-- What the loop returns is the stream, or a prefix it was stopped on. -/
theorem readLoop_ok {reads : List Read} {buf body : List UInt8} {stopped : Bool}
    (h : readLoop maxBytes stop buf reads = .ok (body, stopped)) :
    (body = buf ++ streamOf reads ∧ stopped = false) ∨
      ∃ more, buf ++ streamOf reads = body ++ more ∧ stop body = .ok true := by
  fun_induction readLoop maxBytes stop buf reads with
  | case1 buf =>
    obtain ⟨rfl, rfl⟩ := Prod.mk.inj (Except.ok.inj h)
    exact .inl ⟨(List.append_nil buf).symm, rfl⟩
  | case2 buf r reads hend =>
    obtain ⟨rfl, rfl⟩ := Prod.mk.inj (Except.ok.inj h)
    exact .inl ⟨by rw [streamOf, if_pos hend, List.append_nil], rfl⟩
  | case3 => exact nomatch h
  | case4 => exact nomatch h
  | case5 => exact nomatch h
  | case6 buf r reads hend hsize hlate hstop =>
    obtain ⟨rfl, rfl⟩ := Prod.mk.inj (Except.ok.inj h)
    refine .inr ⟨streamOf reads, ?_, hstop⟩
    rw [streamOf, if_neg hend, List.append_assoc]
  | case7 buf r reads hend hsize hlate hstop ih =>
    rw [streamOf, if_neg hend, ← List.append_assoc]
    exact ih h

/-- A stream that is neither too large nor late is read, unless `stop` raises on a prefix of it. -/
theorem readLoop_or {reads : List Read} {buf : List UInt8}
    (hsize : (buf ++ streamOf reads).length ≤ maxBytes) (hlate : ∀ r ∈ reads, r.late = false) :
    (∃ body stopped, readLoop maxBytes stop buf reads = .ok (body, stopped)) ∨
      ∃ data more e, buf ++ streamOf reads = data ++ more ∧ stop data = .error e := by
  fun_induction readLoop maxBytes stop buf reads with
  | case1 buf => exact .inl ⟨buf, false, rfl⟩
  | case2 buf => exact .inl ⟨buf, false, rfl⟩
  | case3 buf r reads hend hlarge =>
    rw [streamOf, if_neg hend] at hsize
    simp only [List.length_append] at hsize hlarge
    omega
  | case4 buf r reads hend hlarge hr =>
    rw [hlate r List.mem_cons_self] at hr
    exact nomatch hr
  | case5 buf r reads hend hlarge hr e hstop =>
    refine .inr ⟨buf ++ r.chunk, streamOf reads, e, ?_, hstop⟩
    rw [streamOf, if_neg hend, List.append_assoc]
  | case6 buf r => exact .inl ⟨buf ++ r.chunk, true, rfl⟩
  | case7 buf r reads hend hlarge hr hstop ih =>
    rw [streamOf, if_neg hend, ← List.append_assoc] at hsize ⊢
    exact ih hsize fun r hr => hlate r (List.mem_cons_of_mem _ hr)

end Loop

theorem stopOn_eq_true {rpcId : ℤ} {data : List UInt8} (h : stopOn json rpcId data = .ok true) :
    ∃ obj, sseFind json data rpcId false = .ok (some obj) := by
  unfold stopOn at h
  cases hfound : sseFind json data rpcId false with
  | error e =>
    rw [hfound] at h
    exact nomatch h
  | ok found =>
    rw [hfound] at h
    exact ⟨_, by rw [Option.some_get (Except.ok.inj h)]⟩

theorem stopOn_eq_error {rpcId : ℤ} {data : List UInt8} {e : LoadError}
    (h : stopOn json rpcId data = .error e) : sseFind json data rpcId false = .error e := by
  unfold stopOn at h
  cases hfound : sseFind json data rpcId false with
  | error e' =>
    rw [hfound] at h
    rw [Except.error.inj h]
  | ok found =>
    rw [hfound] at h
    exact nomatch h

theorem rpcFromResponse_congr {body body' : List UInt8} {rpcId : ℤ}
    (h : sseFind json body rpcId true = sseFind json body' rpcId true) :
    rpcFromResponse json EVENT_STREAM body rpcId =
      rpcFromResponse json EVENT_STREAM body' rpcId := by
  simp only [rpcFromResponse, if_true, h]

/-- **Reading an event stream until it has the response gives the response of the whole stream**,
however the stream is cut into reads. What the loop returns reads as the whole stream does; a stream
within the limits is read, or the whole one raises as well; and a prefix on which reading is stopped
has the first event with a response complete. -/
theorem readLoop_same (maxBytes : ℕ) (rpcId : ℤ) (reads : List Read) :
    (∀ body stopped, readLoop maxBytes (stopOn json rpcId) [] reads = .ok (body, stopped) →
        rpcFromResponse json EVENT_STREAM body rpcId =
          rpcFromResponse json EVENT_STREAM (streamOf reads) rpcId) ∧
      ((streamOf reads).length ≤ maxBytes → (∀ r ∈ reads, r.late = false) →
        (∃ body stopped, readLoop maxBytes (stopOn json rpcId) [] reads = .ok (body, stopped)) ∨
          rpcFromResponse json EVENT_STREAM (streamOf reads) rpcId = .error .other) ∧
      ∀ data more, streamOf reads = data ++ more → stopOn json rpcId data = .ok true →
        ∃ obj, sseFind json (streamOf reads) rpcId true = .ok (some obj) ∧
          ∃ before event, Complete json rpcId data (streamOf reads) obj before event := by
  refine ⟨fun body stopped h => ?_, fun hsize hlate => ?_, fun data more hdata hstop => ?_⟩
  · apply rpcFromResponse_congr
    rcases readLoop_ok h with ⟨rfl, -⟩ | ⟨more, hmore, hstop⟩
    · rfl
    · obtain ⟨obj, hobj⟩ := stopOn_eq_true json hstop
      have hne : sseFind json body rpcId false ≠ .ok none := by
        rw [hobj]
        exact fun h => nomatch Except.ok.inj h
      have hbody := sseFind_append json hne []
      rw [List.append_nil] at hbody
      rw [List.nil_append] at hmore
      rw [hbody, hmore, sseFind_append json hne more]
  · refine (readLoop_or hsize hlate).imp_right fun ⟨data, more, e, hdata, hstop⟩ => ?_
    have herror := stopOn_eq_error json hstop
    have hne : sseFind json data rpcId false ≠ .ok none := by
      rw [herror]
      exact fun h => nomatch h
    rw [List.nil_append] at hdata
    have hwhole : sseFind json (streamOf reads) rpcId true = .error e := by
      rw [hdata, sseFind_append json hne more, herror]
    simp only [rpcFromResponse, if_true, hwhole]
  · obtain ⟨obj, hobj⟩ := stopOn_eq_true json hstop
    have hne : sseFind json data rpcId false ≠ .ok none := by
      rw [hobj]
      exact fun h => nomatch Except.ok.inj h
    rw [hdata]
    exact ⟨obj, (sseFind_append json hne more).trans hobj, exists_complete json hobj more⟩

namespace Sample

/-- JSON without floats and limits. -/
def plainJson : Json Empty where
  floats := noFloats
  isInt := nofun
  limit := fun _ => none

/-- A stream that is cut inside a character, inside a newline and inside a blank line. -/
def reads : List Read :=
  let data := PyStr.encodeUtf8 (lit "data: \x7b\"id\":1,\"error\":\"é\"\x7d\r\n\r\n:")
  [⟨data.take 24, false⟩, ⟨(data.drop 24).take 4, false⟩, ⟨(data.drop 28).take 2, false⟩,
    ⟨data.drop 30, false⟩]

/-- Reading stops before the last two bytes. -/
theorem readLoop_same_reads :
    ∃ body, readLoop 100 (stopOn plainJson 1) [] reads = .ok (body, true) ∧ body.length = 30 ∧
      rpcFromResponse plainJson EVENT_STREAM body 1 =
        rpcFromResponse plainJson EVENT_STREAM (streamOf reads) 1 := by
  have hread : (readLoop 100 (stopOn plainJson 1) [] reads).toOption.map
      (fun r => (r.1.length, r.2)) = some (30, true) := by decide +kernel
  cases h : readLoop 100 (stopOn plainJson 1) [] reads with
  | error e =>
    rw [h] at hread
    exact nomatch hread
  | ok r =>
    obtain ⟨body, stopped⟩ := r
    rw [h] at hread
    obtain ⟨hlen, rfl⟩ := Prod.mk.inj (Option.some.inj hread)
    exact ⟨body, rfl, hlen, (readLoop_same plainJson 100 1 reads).1 body true h⟩

end Sample

end RagLeap.Integrations
