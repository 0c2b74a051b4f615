import Mathlib.Data.List.DropRight
import RagLeap.Foundations.Scan

/-!
# Splitting a MIME message, in the port

`EmlExtractor.java` reads a message by index into the whole text, with one `char` for each byte:
`parse` reads the headers of an entity and takes the rest of its range for the body, and where the
headers declare a multipart with a boundary, `splitParts` cuts the body at the lines that hold the
boundary and parses every part in turn, down to a fixed depth.

`none` stands for an index error, and for a loop that is still going after as many rounds as there
are characters.
-/

namespace RagLeap.Rag.Mime

open Scan

/-- A `char` of ISO-8859-1. -/
abbrev Latin1 : Type := Fin 256

abbrev Text : Type := List Latin1

def ch (c : Char) : Latin1 := Fin.ofNat 256 c.toNat

/-- A text of the code. -/
def lit (s : String) : Text := s.toList.map ch

def MAX_DEPTH : ℕ := 32

/-! ## Characters -/

def cr : Latin1 := 13

def lf : Latin1 := 10

/-- A space or a tab. -/
def isBlank (c : Latin1) : Bool := c = 32 ∨ c = 9

/-- `Character.isWhitespace(c)` -/
def isWhitespace (c : Latin1) : Bool := (9 ≤ c ∧ c ≤ 13) ∨ (28 ≤ c ∧ c ≤ 32)

/-- `Character.toLowerCase(c)` -/
def toLower (c : Latin1) : Latin1 :=
  if (0x41 ≤ c ∧ c ≤ 0x5A) ∨ (0xC0 ≤ c ∧ c ≤ 0xDE ∧ c ≠ 0xD7) then c + 32 else c

def toLowerCase (s : Text) : Text := s.map toLower

def equalsIgnoreCase (s t : Text) : Bool := toLowerCase s = toLowerCase t

def stripTrailing (s : Text) : Text := s.rdropWhile isWhitespace

def strip (s : Text) : Text := stripTrailing (s.dropWhile isWhitespace)

def lstrip (s : Text) : Option Text :=
  skip isBlank s 0 s.length >>= fun i => substring s i s.length

/-! ## Lines -/

def lineEnd (text : Text) (pos stop : ℕ) : Option ℕ :=
  skip (fun c => c ≠ cr ∧ c ≠ lf) text pos stop

def nextLine (text : Text) (eol stop : ℕ) : Option ℕ :=
  if stop ≤ eol then some eol
  else do
    let c ← charAt text eol
    if c = cr ∧ eol + 1 < stop then
      let d ← charAt text (eol + 1)
      if d = lf then some (eol + 2) else some (eol + 1)
    else some (eol + 1)

/-- The loop `while (pos < end)` over the lines of a range. The body is given where the line starts,
where it ends and where the next one starts, and tells whether the loop goes on. -/
def eachLine {σ : Type} (text : Text) (stop : ℕ) (body : ℕ → ℕ → ℕ → σ → Option (σ × Bool)) :
    ℕ → ℕ → σ → Option σ
  | 0, pos, st => if pos < stop then none else some st
  | fuel + 1, pos, st =>
    if pos < stop then do
      let eol ← lineEnd text pos stop
      let next ← nextLine text eol stop
      let r ← body pos eol next st
      if r.2 then eachLine text stop body fuel next r.1 else some r.1
    else some st

/-! ## Headers -/

structure Header where
  name : Text
  value : Text
  deriving DecidableEq

/-- The value of the first header of this name. -/
def header (headers : List Header) (name : Text) : Option Text :=
  (headers.find? fun h => equalsIgnoreCase h.name name).map Header.value

/-- What `parse` knows while it reads the headers; `cur` is the header being read. -/
structure HeaderScan where
  pos : ℕ
  first : Bool
  cur : Option Header
  headers : List Header

/-- The headers with the one being read. -/
def HeaderScan.closed (st : HeaderScan) : List Header := st.headers ++ st.cur.toList

def isNameChar (c : Latin1) : Bool := 0x21 ≤ c ∧ c ≤ 0x7E

def validHeaderName (line : Text) (colon : ℕ) : Option Bool :=
  (skip isNameChar line 0 colon).map fun i => i == colon

/-- The header that starts in a line with a colon, if its name is valid. -/
def startOfHeader (line : Text) (colon : ℕ) : Option (Option Header) := do
  let valid ← validHeaderName line colon
  if valid then
    let name ← substring line 0 colon
    let rest ← substring line (colon + 1) line.length
    let value ← lstrip rest
    some (some ⟨name, value⟩)
  else some none

/-- The body of the loop of `parse`. -/
def headerLine (line : Text) (eol next : ℕ) (st : HeaderScan) : Option (HeaderScan × Bool) :=
  if line = [] ∧ eol < next then some ({ st with pos := next }, false)
  else if st.first ∧ startsWith line (lit "From ") 0 then
    some ({ st with pos := next, first := false }, true)
  else if startsWith line (lit " ") 0 ∨ startsWith line (lit "\t") 0 then
    let cur := st.cur.map fun h => { h with value := h.value ++ line }
    some ({ st with pos := next, first := false, cur := cur }, true)
  else
    match indexOf line (ch ':') with
    | none | some 0 => some ({ st with first := false }, false)
    | some colon =>
      startOfHeader line colon >>= fun h =>
        match h with
        | none => some ({ st with first := false }, false)
        | some h => some (⟨next, false, some h, st.closed⟩, true)

/-! ## The content type and its parameters -/

/-- `semi >= 0 ? v.substring(0, semi) : v` -/
def beforeSemi (v : Text) : Option Text :=
  match indexOf v (ch ';') with
  | none => some v
  | some semi => substring v 0 semi

def contentType (headers : List Header) : Option Text :=
  match header headers (lit "content-type") with
  | none => some (lit "text/plain")
  | some v => do
    let value ← beforeSemi v
    let ctype := toLowerCase (strip value)
    match indexOf ctype (ch '/') with
    | none => some (lit "text/plain")
    | some slash =>
      if ch '/' ∈ ctype.drop (slash + 1) then some (lit "text/plain") else some ctype

/-- The loop over a quoted value, which ends at the closing quote. -/
def quoted (header : Text) : ℕ → ℕ → Text → Option (Text × ℕ)
  | 0, i, q => if i < header.length then none else some (q, i)
  | fuel + 1, i, q =>
    if i < header.length then do
      let c ← charAt header i
      if c = ch '"' then some (q, i)
      else if c = ch '\\' ∧ i + 1 < header.length then
        let d ← charAt header (i + 1)
        quoted header fuel (i + 2) (q ++ [d])
      else quoted header fuel (i + 1) (q ++ [c])
    else some (q, i)

/-- Whether the character at `i` is `c`; behind the end the answer is `outside`. -/
def charIs (header : Text) (i : ℕ) (c : Latin1) (outside : Bool) : Option Bool :=
  if i < header.length then (charAt header i).map (· == c) else some outside

/-- The value of a parameter, from behind the `=`, and where the next parameter starts. -/
def paramValue (header : Text) (i : ℕ) : Option (Text × ℕ) := do
  let n := header.length
  let i ← skip isBlank header i n
  let isQuoted ← charIs header i (ch '"') false
  if isQuoted then
    let r ← quoted header (n - (i + 1)) (i + 1) []
    let j ← skip (· ≠ ch ';') header (if r.2 < n then r.2 + 1 else r.2) n
    some (r.1, j)
  else
    let j ← skip (· ≠ ch ';') header i n
    let value ← substring header i j
    some (strip value, j)

/-- The name of a parameter, its value if it has one, and where the next parameter starts. -/
def paramItem (header : Text) (i : ℕ) : Option (Text × Option Text × ℕ) := do
  let n := header.length
  let nameStart ← skip (fun c => isBlank c ∨ c = ch ';') header i n
  let i ← skip (fun c => c ≠ ch '=' ∧ c ≠ ch ';') header nameStart n
  let name ← substring header nameStart i
  let noValue ← charIs header i (ch ';') true
  if noValue then some (strip name, none, i)
  else
    let r ← paramValue header (i + 1)
    some (strip name, some r.1, r.2)

def paramFrom (header name : Text) : ℕ → ℕ → Option (Option Text)
  | 0, i => if i < header.length then none else some none
  | fuel + 1, i =>
    if i < header.length then
      paramItem header i >>= fun item =>
        match item with
        | (_, none, j) => paramFrom header name fuel j
        | (pname, some value, j) =>
          if equalsIgnoreCase pname name then some (some value)
          else paramFrom header name fuel j
    else some none

/-- The value of a parameter; `some none` if there is none. -/
def param (header : Option Text) (name : Text) : Option (Option Text) :=
  match header with
  | none => some none
  | some h =>
    match indexOf h (ch ';') with
    | none => some none
    | some i => paramFrom h name (h.length - (i + 1)) (i + 1)

/-- The boundary at which the body is to be split, if it is. -/
def splitAt (headers : List Header) : Option (Option Text) := do
  let ctype ← contentType headers
  if startsWith ctype (lit "multipart/") 0 then
    let boundary ← param (header headers (lit "content-type")) (lit "boundary")
    some (boundary.bind fun b => if b = [] then none else some (stripTrailing b))
  else some none

/-! ## Entities -/

/-- One message or MIME part. -/
structure Entity where
  headers : List Header
  bodyStart : ℕ
  bodyEnd : ℕ
  parts : Option (List Entity)

/-- The body of an entity of this text. -/
def Entity.body (text : Text) (e : Entity) : Option Text := substring text e.bodyStart e.bodyEnd

/-- `parse` as far as the headers. -/
def readHeaders (text : Text) (start stop : ℕ) : Option Entity := do
  let body pos eol next st := substring text pos eol >>= fun line => headerLine line eol next st
  let st ← eachLine text stop body (stop - start) start ⟨start, true, none, []⟩
  some ⟨st.closed, st.pos, stop, none⟩

/-! ## Splitting a body -/

/-- What `matchDelimiter` says about a line: `0`, `1` and `2`. -/
inductive Kind
  | other
  | opening
  | closing
  deriving DecidableEq

def matchDelimiter (text : Text) (pos eol : ℕ) (delim : Text) : Option Kind :=
  if startsWith text delim pos then do
    let p := pos + delim.length
    let close := decide (p + 2 ≤ eol) && startsWith text (lit "--") p
    let q ← skip isBlank text (if close then p + 2 else p) eol
    some (if q ≠ eol then .other else if close then .closing else .opening)
  else some .other

/-- What `splitParts` knows while it goes through the lines of a body. -/
structure SplitScan where
  inPart : Bool
  sawStart : Bool
  partStart : ℕ
  prevEolLen : ℕ
  parts : List Entity

/-- The parts with the one that ends in front of the delimiter at `pos`. -/
def SplitScan.closed (parse : ℕ → ℕ → Option Entity) (pos : ℕ) (st : SplitScan) :
    Option (List Entity) :=
  if st.inPart then
    (parse st.partStart (max st.partStart (pos - st.prevEolLen))).map fun e => st.parts ++ [e]
  else some st.parts

/-- The body of the loop of `splitParts`. -/
def splitLine (parse : ℕ → ℕ → Option Entity) (kind : Kind) (pos eol next : ℕ) (st : SplitScan) :
    Option (SplitScan × Bool) :=
  match kind with
  | .other => some ({ st with prevEolLen := next - eol }, true)
  | .opening => (st.closed parse pos).map fun parts => (⟨true, true, next, next - eol, parts⟩, true)
  | .closing => (st.closed parse pos).map fun parts =>
      ({ st with inPart := false, sawStart := true, parts := parts }, false)

def trailingEolLength (text : Text) (start stop : ℕ) : Option ℕ := do
  let c ← charAt text (stop - 1)
  if c = lf then
    if start + 2 ≤ stop then
      let d ← charAt text (stop - 2)
      some (if d = cr then 2 else 1)
    else some 1
  else some (if c = cr then 1 else 0)

/-- The last part of a multipart that is not terminated loses one line break, unless it is itself a
multipart. -/
def trimLast (text : Text) (last : Entity) : Option Entity :=
  if last.parts.isNone ∧ last.bodyStart < last.bodyEnd then
    (trailingEolLength text last.bodyStart last.bodyEnd).map fun n =>
      { last with bodyEnd := last.bodyEnd - n }
  else some last

/-- The parts of a multipart body; `some none` if it has no boundary line. -/
def splitParts (text : Text) (parse : ℕ → ℕ → Option Entity) (e : Entity) (boundary : Text) :
    Option (Option (List Entity)) := do
  let delim := lit "--" ++ boundary
  let body pos eol next st :=
    matchDelimiter text pos eol delim >>= fun kind => splitLine parse kind pos eol next st
  let st ← eachLine text e.bodyEnd body (e.bodyEnd - e.bodyStart) e.bodyStart
    ⟨false, false, 0, 0, []⟩
  if st.inPart then
    let last ← parse st.partStart e.bodyEnd
    let last ← trimLast text last
    some (if st.sawStart then some (st.parts ++ [last]) else none)
  else some (if st.sawStart then some st.parts else none)

/-- `parse(text, start, stop, depth)` with `MAX_DEPTH - depth` levels still to be followed. -/
def parse (text : Text) : ℕ → ℕ → ℕ → Option Entity
  | 0, start, stop => readHeaders text start stop
  | levels + 1, start, stop => do
    let e ← readHeaders text start stop
    let boundary ← splitAt e.headers
    match boundary with
    | none => some e
    | some b => (splitParts text (parse text levels) e b).map fun parts => { e with parts := parts }

/-- `parse(text, 0, text.length(), 0)` -/
def parseMessage (text : Text) : Option Entity := parse text MAX_DEPTH 0 text.length

end RagLeap.Rag.Mime
