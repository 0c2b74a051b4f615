import Mathlib
import RagLeap.Foundations.Consume
import RagLeap.Foundations.JavaText
import RagLeap.Foundations.Utf8

/-!
# The wire format of the Redis client

`encode` and `read` of `RespClient.java`. A request is an array of strings whose length stands before
their bytes; a reply is a line, a number, a string, an array of replies, or an error, which `read`
throws where it meets it.

`exists_takes` says what `read` does at a reply (`Reply.wire`): it takes the reply up to and with
its first error, and of a reply that breaks off it makes nothing. What stands behind an error inside
an array (`outcome`) stays in the stream.
-/

namespace RagLeap.Rag.Resp

open Consume Consume.Reader JStr

/-! ## Text and bytes -/

def ofByte (b : UInt8) : JChar := Fin.ofNat 0x10000 b.toNat

/-- The bytes of a text in US-ASCII. -/
def ascii (s : JStr) : List UInt8 :=
  s.map fun c => if c.val < 0x80 then UInt8.ofNat c.val else 0x3F

/-- The bytes of a lone code unit in UTF-8: a surrogate becomes a question mark. -/
def utf8Unit (c : JChar) : List UInt8 :=
  if isHigh c || isLow c then [0x3F] else PyStr.encodeChar (point c.val)

/-- `s.getBytes(StandardCharsets.UTF_8)` -/
def utf8 : JStr → List UInt8
  | [] => []
  | [c] => utf8Unit c
  | c :: d :: s =>
    if isHigh c && isLow d then
      PyStr.encodeChar (point (0x10000 + (c.val - 0xD800) * 0x400 + (d.val - 0xDC00))) ++ utf8 s
    else utf8Unit c ++ utf8 (d :: s)

def cr : UInt8 := 13
def lf : UInt8 := 10

def crlf : List UInt8 := [cr, lf]

/-- The text without its sign. -/
def unsigned (s : JStr) : JStr :=
  if s.head? = some (jc '-') ∨ s.head? = some (jc '+') then s.tail else s

def signed (s : JStr) : ℤ :=
  if s.head? = some (jc '-') then -(parseNat (unsigned s) : ℤ) else parseNat (unsigned s)

/-- `Integer.parseInt(s)` for 32 bits, `Long.parseLong(s)` for 64. -/
def parseInteger (bits : ℕ) (s : JStr) : Option ℤ :=
  if unsigned s ≠ [] ∧ (unsigned s).all isDigit = true then
    if -2 ^ (bits - 1) ≤ signed s ∧ signed s < 2 ^ (bits - 1) then some (signed s) else none
  else none

/-! ## Requests -/

inductive Arg
  | bytes (b : List UInt8)
  | text (s : JStr)

def Arg.toBytes : Arg → List UInt8
  | bytes b => b
  | text s => utf8 s

/-- A type byte and a number on a line. -/
def header (t : Char) (n : ℤ) : List UInt8 := ascii (jc t :: decimal n) ++ crlf

def encodeBytes (b : List UInt8) : List UInt8 := header '$' b.length ++ b ++ crlf

def encode (args : List Arg) : List UInt8 :=
  header '*' args.length ++ args.flatMap fun a => encodeBytes a.toBytes

/-! ## Replies -/

/-- Why nothing is returned. The first four are an `IOException`; `redis` is an error reply, and
`number` a `NumberFormatException`. -/
inductive Fail
  | network
  | eof
  | malformed
  | unexpected (t : JChar)
  | number (line : JStr)
  | redis (line : JStr)

def Fail.isIOException : Fail → Bool
  | network | eof | malformed | unexpected _ => true
  | number _ | redis _ => false

inductive Value
  | text (s : JStr)
  | int (n : ℤ)
  | bytes (b : List UInt8)
  | list (l : List Value)
  | null

/-- A line from the bytes before its end. -/
def readLineFrom (sb : JStr) : Reader Fail UInt8 JStr
  | [] => (.error .eof, [])
  | b :: s =>
    if b = cr then
      match s with
      | [] => (.error .malformed, [])
      | c :: s => if c = lf then (.ok sb, s) else (.error .malformed, s)
    else readLineFrom (sb ++ [ofByte b]) s

def readLine : Reader Fail UInt8 JStr := readLineFrom []

/-- `n` bytes, and two more that are skipped. -/
def readBulk (n : ℕ) : Reader Fail UInt8 (List UInt8) := fun s =>
  if n + 2 ≤ s.length then (.ok (s.take n), s.drop (n + 2)) else (.error .eof, [])

def orRaise (line : JStr) : Option ℤ → Reader Fail UInt8 ℤ
  | some n => pure n
  | none => raise (.number line)

/-- What a type byte and its line begin; `element` reads a reply inside an array. -/
def readBody (element : Reader Fail UInt8 Value) (t : JChar) (line : JStr) :
    Reader Fail UInt8 Value :=
  if t = jc '+' then pure (.text line)
  else if t = jc '-' then raise (.redis line)
  else if t = jc ':' then orRaise line (parseInteger 64 line) >>= fun n => pure (.int n)
  else if t = jc '$' then orRaise line (parseInteger 32 line) >>= fun n =>
    if n < 0 then pure .null else readBulk n.toNat >>= fun b => pure (.bytes b)
  else if t = jc '*' then orRaise line (parseInteger 32 line) >>= fun n =>
    if n < 0 then pure .null else element.times n.toNat >>= fun l => pure (.list l)
  else raise (.unexpected t)

/-- `read` with the arrays nested at most so deep. -/
def readFrom : ℕ → Reader Fail UInt8 Value
  | 0 => raise .eof
  | depth + 1 => next .eof >>= fun t => readLine >>= fun line =>
    readBody (readFrom depth) (ofByte t) line

/-- No array is nested deeper than the stream is long. -/
def read : Reader Fail UInt8 Value := fun s => readFrom s.length s

/-! ## The nesting -/

theorem readLineFrom_cr_cons (sb : JStr) (c : UInt8) (s : List UInt8) :
    readLineFrom sb (cr :: c :: s) = if c = lf then (.ok sb, s) else (.error .malformed, s) := rfl

theorem readLineFrom_of_ne {b : UInt8} (h : b ≠ cr) (sb : JStr) (s : List UInt8) :
    readLineFrom sb (b :: s) = readLineFrom (sb ++ [ofByte b]) s := by
  cases s <;> simp [readLineFrom, h]

theorem shrinks_readLineFrom (sb : JStr) : Shrinks (readLineFrom sb) := by
  intro s
  induction s generalizing sb with
  | nil => exact Nat.le_refl _
  | cons b s ih =>
    by_cases hb : b = cr
    · rw [hb]
      cases s with
      | nil => exact Nat.zero_le _
      | cons c s =>
        rw [readLineFrom_cr_cons]
        split_ifs <;> simp only [List.length_cons] <;> omega
    · rw [readLineFrom_of_ne hb]
      exact (ih _).trans (Nat.le_succ _)

theorem shrinks_readBulk (n : ℕ) : Shrinks (readBulk n) := by
  intro s
  rw [readBulk]
  split_ifs
  · rw [List.length_drop]
    exact Nat.sub_le _ _
  · exact Nat.zero_le _

theorem shrinks_orRaise (line : JStr) (n : Option ℤ) : Shrinks (orRaise line n) := by
  cases n with
  | none => exact shrinks_raise _
  | some n => exact shrinks_pure n

theorem shrinks_readBody {element : Reader Fail UInt8 Value} (h : Shrinks element) (t : JChar)
    (line : JStr) : Shrinks (readBody element t line) := by
  unfold readBody
  split_ifs
  · exact shrinks_pure _
  · exact shrinks_raise _
  · exact (shrinks_orRaise _ _).bind fun n => shrinks_pure _
  · refine (shrinks_orRaise _ _).bind fun n => ?_
    split_ifs
    · exact shrinks_pure _
    · exact (shrinks_readBulk _).bind fun b => shrinks_pure _
  · refine (shrinks_orRaise _ _).bind fun n => ?_
    split_ifs
    · exact shrinks_pure _
    · exact (h.times _).bind fun l => shrinks_pure _
  · exact shrinks_raise _

theorem shrinks_next : Shrinks (next .eof : Reader Fail UInt8 UInt8) := by
  intro s
  cases s with
  | nil => exact Nat.le_refl _
  | cons t s => exact Nat.le_succ _

theorem shrinks_readFrom (depth : ℕ) : Shrinks (readFrom depth) := by
  induction depth with
  | zero => exact shrinks_raise _
  | succ depth ih =>
    exact shrinks_next.bind fun t => (shrinks_readLineFrom []).bind fun line =>
      shrinks_readBody ih _ line

theorem agree_readBody {m : ℕ} {x y : Reader Fail UInt8 Value} (h : Agree m x y) (hx : Shrinks x)
    (t : JChar) (line : JStr) : Agree m (readBody x t line) (readBody y t line) := by
  unfold readBody
  split_ifs
  · exact .refl m _
  · exact .refl m _
  · exact .refl m _
  · exact .refl m _
  · refine (Agree.refl m _).bind (shrinks_orRaise _ _) fun n => ?_
    split_ifs
    · exact .refl m _
    · exact (h.times hx _).bind (hx.times _) fun l => .refl m _
  · exact .refl m _

/-- More depth than the stream is long changes nothing. -/
theorem agree_readFrom {m d d' : ℕ} (hd : m ≤ d) (hd' : m ≤ d') :
    Agree m (readFrom d) (readFrom d') := by
  induction m generalizing d d' with
  | zero =>
    intro s hs
    obtain rfl := List.eq_nil_of_length_eq_zero (Nat.le_zero.1 hs)
    cases d <;> cases d' <;> rfl
  | succ m ih =>
    obtain ⟨d, rfl⟩ := Nat.exists_eq_add_of_le' (Nat.le_trans (Nat.le_add_left 1 m) hd)
    obtain ⟨d', rfl⟩ := Nat.exists_eq_add_of_le' (Nat.le_trans (Nat.le_add_left 1 m) hd')
    intro s hs
    cases s with
    | nil => rfl
    | cons t s =>
      have hrest : Agree m (readLine >>= fun line => readBody (readFrom d) (ofByte t) line)
          (readLine >>= fun line => readBody (readFrom d') (ofByte t) line) :=
        (Agree.refl m _).bind (shrinks_readLineFrom []) fun line =>
          agree_readBody (ih (Nat.le_of_succ_le_succ hd) (Nat.le_of_succ_le_succ hd'))
            (shrinks_readFrom d) _ line
      exact hrest s (Nat.le_of_succ_le_succ hs)

theorem read_eq {depth : ℕ} {s : List UInt8} (h : s.length ≤ depth) : read s = readFrom depth s :=
  agree_readFrom (Nat.le_refl _) h s (Nat.le_refl _)

/-! ## Lines and numbers -/

theorem ofByte_ofNat {c : JChar} (h : c.val < 0x80) : ofByte (UInt8.ofNat c.val) = c := by
  apply Fin.ext
  rw [ofByte, Fin.val_ofNat, UInt8.toNat_ofNat_of_lt' (by simpa using Nat.lt_trans h (by decide))]
  exact Nat.mod_eq_of_lt c.isLt

/-- The text of a line. -/
def textOf (b : List UInt8) : JStr := b.map ofByte

theorem textOf_ascii {s : JStr} (h : ∀ c ∈ s, c.val < 0x80) : textOf (ascii s) = s := by
  rw [textOf, ascii, List.map_map]
  refine (List.map_congr_left fun c hc => ?_).trans (List.map_id' s)
  rw [Function.comp_apply, if_pos (h c hc), ofByte_ofNat (h c hc)]

/-- A line is read up to its end, and breaks off before it. -/
theorem takes_readLineFrom {line : List UInt8} (h : cr ∉ line) (sb : JStr) :
    Takes Fail.isIOException (readLineFrom sb) (line ++ crlf) (.ok (sb ++ textOf line)) := by
  induction line generalizing sb with
  | nil =>
    constructor
    · intro rest
      simp [textOf, crlf, readLineFrom]
    · intro p hp hne
      rcases List.prefix_cons_iff.1 hp with rfl | ⟨t, rfl, ht⟩
      · exact ⟨.eof, rfl, rfl⟩
      · rcases List.prefix_cons_iff.1 ht with rfl | ⟨t, rfl, ht⟩
        · exact ⟨.malformed, rfl, rfl⟩
        · obtain rfl := List.prefix_nil.1 ((List.prefix_cons_inj lf).1 ht)
          exact absurd rfl hne
  | cons b line ih =>
    obtain ⟨hb, hline⟩ := not_or.1 (mt List.mem_cons.2 h)
    have hrest := ih hline (sb ++ [ofByte b])
    constructor
    · intro rest
      rw [List.cons_append, List.cons_append, readLineFrom_of_ne (Ne.symm hb), hrest.whole,
        List.append_assoc]
      rfl
    · intro p hp hne
      rcases List.prefix_cons_iff.1 hp with rfl | ⟨t, rfl, ht⟩
      · exact ⟨.eof, rfl, rfl⟩
      · rw [readLineFrom_of_ne (Ne.symm hb)]
        exact hrest.cut t ht fun heq => hne (by rw [heq]; rfl)

theorem takes_readLine {line : List UInt8} (h : cr ∉ line) :
    Takes Fail.isIOException readLine (line ++ crlf) (.ok (textOf line)) :=
  takes_readLineFrom h []

theorem takes_readBulk (b : List UInt8) :
    Takes Fail.isIOException (readBulk b.length) (b ++ crlf) (.ok b) where
  whole rest := by
    have hlen : b.length + 2 ≤ (b ++ crlf ++ rest).length := by
      simp only [List.length_append, crlf, List.length_cons, List.length_nil]
      omega
    have hdrop : (b ++ crlf ++ rest).drop (b.length + 2) = rest :=
      List.drop_left' (by rw [List.length_append]; rfl)
    rw [readBulk, if_pos hlen, hdrop, List.append_assoc, List.take_left]
  cut p hp hne := by
    have hlt : p.length < (b ++ crlf).length :=
      Nat.lt_of_le_of_ne hp.length_le fun h => hne (hp.eq_of_length h)
    have hshort : ¬ b.length + 2 ≤ p.length := by
      simp only [List.length_append, crlf, List.length_cons, List.length_nil] at hlt
      omega
    exact ⟨.eof, rfl, by rw [readBulk, if_neg hshort]⟩

theorem val_decimal (n : ℤ) : ∀ c ∈ decimal n, c = jc '-' ∨ isDigit c = true := by
  intro c hc
  unfold decimal at hc
  split_ifs at hc
  · exact (List.mem_cons.1 hc).imp_right (isDigit_natText _ c)
  · exact .inr (isDigit_natText _ c hc)

theorem lt_of_mem_decimal {n : ℤ} {c : JChar} (hc : c ∈ decimal n) :
    c.val < 0x80 ∧ c.val ≠ 13 := by
  rcases val_decimal n c hc with rfl | h
  · decide
  · rw [isDigit_iff] at h
    omega

theorem cr_not_mem_ascii_decimal (n : ℤ) : cr ∉ ascii (decimal n) := by
  intro hmem
  obtain ⟨c, hc, hcr⟩ := List.mem_map.1 hmem
  obtain ⟨hlt, hne⟩ := lt_of_mem_decimal hc
  rw [if_pos hlt] at hcr
  have hval := congrArg UInt8.toNat hcr
  rw [UInt8.toNat_ofNat_of_lt' (by simpa using Nat.lt_trans hlt (by decide))] at hval
  exact hne hval

theorem textOf_decimal (n : ℤ) : textOf (ascii (decimal n)) = decimal n :=
  textOf_ascii fun _ hc => (lt_of_mem_decimal hc).1

theorem all_isDigit_natText (n : ℕ) : (natText n).all isDigit = true :=
  List.all_eq_true.2 (isDigit_natText n)

theorem parseInteger_of_signed {bits n : ℕ} {z : ℤ} {s : JStr} (hs : unsigned s = natText n)
    (hz : signed s = z) (hlow : -2 ^ (bits - 1) ≤ z) (hhigh : z < 2 ^ (bits - 1)) :
    parseInteger bits s = some z := by
  rw [parseInteger, hs, if_pos ⟨natText_ne_nil n, all_isDigit_natText n⟩, hz]
  exact if_pos ⟨hlow, hhigh⟩

theorem head?_natText_ne {c : JChar} (hc : isDigit c = false) (n : ℕ) :
    (natText n).head? ≠ some c := by
  intro hhead
  have hdigit := isDigit_natText n c (List.mem_of_head? hhead)
  rw [hc] at hdigit
  cases hdigit

theorem parseInteger_decimal {bits : ℕ} {n : ℤ} (hlow : -2 ^ (bits - 1) ≤ n)
    (hhigh : n < 2 ^ (bits - 1)) : parseInteger bits (decimal n) = some n := by
  unfold decimal
  split_ifs with hneg
  · have hs : unsigned (jc '-' :: natText n.natAbs) = natText n.natAbs := if_pos (.inl rfl)
    refine parseInteger_of_signed hs ?_ hlow hhigh
    rw [signed, List.head?_cons, if_pos rfl, hs, parseNat_natText]
    omega
  · have hminus := head?_natText_ne (show isDigit (jc '-') = false by decide) n.natAbs
    have hplus := head?_natText_ne (show isDigit (jc '+') = false by decide) n.natAbs
    have hs : unsigned (natText n.natAbs) = natText n.natAbs := if_neg (not_or.2 ⟨hminus, hplus⟩)
    refine parseInteger_of_signed hs ?_ hlow hhigh
    rw [signed, if_neg hminus, hs, parseNat_natText]
    omega

/-! ## Replies of a server -/

/-- A reply. A line has no carriage return, and the numbers are those that a line may have. -/
inductive Reply
  | status (line : List UInt8) (h : cr ∉ line)
  | error (line : List UInt8) (h : cr ∉ line)
  | int (n : ℤ) (hlow : -2 ^ 63 ≤ n) (hhigh : n < 2 ^ 63)
  | bulk (b : List UInt8) (h : b.length < 2 ^ 31)
  | nullBulk
  | array (n : Fin (2 ^ 31)) (elements : Fin n.val → Reply)
  | nullArray

/-- What reading the elements of an array gives, and what it leaves of them: the first error ends
it. An element stands with what reading it gives and leaves. -/
def collect : List ((Except Fail Value × List Reply) × Reply) →
    Except Fail (List Value) × List Reply
  | [] => (.ok [], [])
  | ((.error e, left), _) :: l => (.error e, left ++ l.map Prod.snd)
  | ((.ok v, _), _) :: l => ((collect l).1.map (v :: ·), (collect l).2)

namespace Reply

def wire : Reply → List UInt8
  | status line _ => ascii [jc '+'] ++ (line ++ crlf)
  | error line _ => ascii [jc '-'] ++ (line ++ crlf)
  | int n _ _ => header ':' n
  | bulk b _ => encodeBytes b
  | nullBulk => header '$' (-1)
  | array n elements => header '*' n.val ++ (List.ofFn fun i => (elements i).wire).flatten
  | nullArray => header '*' (-1)

/-- What reading the reply gives, and the replies inside it that are left unread. -/
def outcome : Reply → Except Fail Value × List Reply
  | status line _ => (.ok (.text (textOf line)), [])
  | error line _ => (.error (.redis (textOf line)), [])
  | int n _ _ => (.ok (.int n), [])
  | bulk b _ => (.ok (.bytes b), [])
  | array _ elements =>
    let read := collect (List.ofFn fun i => ((elements i).outcome, elements i))
    (read.1.map Value.list, read.2)
  | nullBulk | nullArray => (.ok .null, [])

end Reply

def wires (l : List Reply) : List UInt8 := l.flatMap Reply.wire

def outcomes (l : List Reply) : Except Fail (List Value) × List Reply :=
  collect (l.map fun r => (r.outcome, r))

theorem wires_append (l l' : List Reply) : wires (l ++ l') = wires l ++ wires l' :=
  List.flatMap_append

theorem wire_array (n : Fin (2 ^ 31)) (elements : Fin n.val → Reply) :
    (Reply.array n elements).wire = header '*' n.val ++ wires (List.ofFn elements) := by
  rw [Reply.wire, wires, List.flatMap_def, List.map_ofFn]
  rfl

theorem outcome_array (n : Fin (2 ^ 31)) (elements : Fin n.val → Reply) :
    (Reply.array n elements).outcome =
      ((outcomes (List.ofFn elements)).1.map .list, (outcomes (List.ofFn elements)).2) := by
  rw [Reply.outcome, outcomes, List.map_ofFn]
  rfl

theorem outcomes_cons_error {r : Reply} {e : Fail} {left : List Reply}
    (h : r.outcome = (.error e, left)) (l : List Reply) :
    outcomes (r :: l) = (.error e, left ++ l) := by
  have hl : (l.map fun r => (r.outcome, r)).map Prod.snd = l := by
    rw [List.map_map]
    exact List.map_id l
  rw [outcomes, List.map_cons, h, collect, hl]

theorem outcomes_cons_ok {r : Reply} {v : Value} {left : List Reply}
    (h : r.outcome = (.ok v, left)) (l : List Reply) :
    outcomes (r :: l) = ((outcomes l).1.map (v :: ·), (outcomes l).2) := by
  rw [outcomes, List.map_cons, h, collect, outcomes]

theorem left_outcomes_of_ok {l : List Reply} {vs : List Value} (h : (outcomes l).1 = .ok vs) :
    (outcomes l).2 = [] := by
  induction l generalizing vs with
  | nil => rfl
  | cons r l ih =>
    rcases hr : r.outcome with ⟨e | v, left⟩
    · rw [outcomes_cons_error hr] at h
      exact nomatch h
    · rw [outcomes_cons_ok hr] at h ⊢
      rcases hl : (outcomes l).1 with e | vs'
      · rw [hl] at h
        exact nomatch h
      · exact ih hl

/-- A reply that is returned is read to its end. -/
theorem left_of_ok {r : Reply} {v : Value} (h : r.outcome.1 = .ok v) : r.outcome.2 = [] := by
  cases r with
  | array n elements =>
    rw [outcome_array] at h ⊢
    rcases hl : (outcomes (List.ofFn elements)).1 with e | vs
    · rw [hl] at h
      exact nomatch h
    · exact left_outcomes_of_ok hl
  | _ => rfl

theorem redis_of_outcomes {l : List Reply} {e : Fail}
    (h : ∀ r ∈ l, ∀ e, r.outcome.1 = .error e → ∃ line, e = .redis line)
    (he : (outcomes l).1 = .error e) : ∃ line, e = .redis line := by
  induction l with
  | nil => cases he
  | cons r l ih =>
    rcases hr : r.outcome with ⟨e' | v, left⟩
    · rw [outcomes_cons_error hr] at he
      obtain rfl := Except.error.inj he
      exact h r List.mem_cons_self e' (congrArg Prod.fst hr)
    · rw [outcomes_cons_ok hr] at he
      rcases hl : (outcomes l).1 with e' | vs
      · rw [hl] at he
        obtain rfl := Except.error.inj he
        exact ih (fun r' hr' => h r' (List.mem_cons_of_mem r hr')) hl
      · rw [hl] at he
        cases he

/-- A reply that is not returned is an error reply or has one. -/
theorem redis_of_outcome {r : Reply} {e : Fail} (h : r.outcome.1 = .error e) :
    ∃ line, e = .redis line := by
  induction r generalizing e with
  | error line hline => exact ⟨textOf line, (Except.error.inj h).symm⟩
  | array n elements ih =>
    rw [outcome_array] at h
    rcases hl : (outcomes (List.ofFn elements)).1 with e' | vs
    · rw [hl] at h
      obtain rfl := Except.error.inj h
      refine redis_of_outcomes (fun r hr e he => ?_) hl
      obtain ⟨i, rfl⟩ := List.mem_ofFn.1 hr
      exact ih i he
    · rw [hl] at h
      cases h
  | _ => cases h

/-! ## Reading a reply -/

theorem header_eq (t : Char) (n : ℤ) :
    header t n = ascii [jc t] ++ (ascii (decimal n) ++ crlf) := by
  rw [header, ← List.append_assoc, ascii, ascii, ascii, ← List.map_append]
  rfl

variable {depth : ℕ} {tail line : List UInt8} {res : Except Fail Value}

theorem takes_readFrom {t : Char} (ht : (jc t).val < 0x80) (h : cr ∉ line)
    (hbody : Takes Fail.isIOException (readBody (readFrom depth) (jc t) (textOf line)) tail res) :
    Takes Fail.isIOException (readFrom (depth + 1)) (ascii [jc t] ++ (line ++ crlf) ++ tail) res := by
  have hbyte : ascii [jc t] = [UInt8.ofNat (jc t).val] := by
    rw [ascii, List.map_singleton, if_pos ht]
  have hnext : Takes Fail.isIOException (next .eof) _ _ := takes_next rfl (UInt8.ofNat (jc t).val)
  rw [hbyte, List.append_assoc]
  refine hnext.bind ((takes_readLine h).bind ?_)
  rwa [ofByte_ofNat ht]

theorem takes_header {t : Char} (ht : (jc t).val < 0x80) {n : ℤ}
    (hbody : Takes Fail.isIOException (readBody (readFrom depth) (jc t) (decimal n)) tail res) :
    Takes Fail.isIOException (readFrom (depth + 1)) (header t n ++ tail) res := by
  rw [header_eq]
  refine takes_readFrom ht (cr_not_mem_ascii_decimal n) ?_
  rwa [textOf_decimal]

variable (element : Reader Fail UInt8 Value)

theorem readBody_int {n : ℤ} (hlow : -2 ^ 63 ≤ n) (hhigh : n < 2 ^ 63) :
    readBody element (jc ':') (decimal n) = pure (.int n) := by
  have hparse : parseInteger 64 (decimal n) = some n := parseInteger_decimal hlow hhigh
  rw [readBody, if_neg (by decide), if_neg (by decide), if_pos rfl, hparse]
  rfl

theorem readBody_bulk {n : ℕ} (h : n < 2 ^ 31) :
    readBody element (jc '$') (decimal n) = readBulk n >>= fun b => pure (.bytes b) := by
  have hparse : parseInteger 32 (decimal n) = some n :=
    parseInteger_decimal (by omega) (by omega)
  rw [readBody, if_neg (by decide), if_neg (by decide), if_neg (by decide), if_pos rfl, hparse]
  rfl

theorem readBody_array {n : ℕ} (h : n < 2 ^ 31) :
    readBody element (jc '*') (decimal n) = element.times n >>= fun l => pure (.list l) := by
  have hparse : parseInteger 32 (decimal n) = some n :=
    parseInteger_decimal (by omega) (by omega)
  rw [readBody, if_neg (by decide), if_neg (by decide), if_neg (by decide), if_neg (by decide),
    if_pos rfl, hparse]
  rfl

theorem readBody_null {t : Char} (ht : t = '$' ∨ t = '*') :
    readBody element (jc t) (decimal (-1)) = pure .null := by
  have hparse : parseInteger 32 (decimal (-1)) = some (-1) :=
    parseInteger_decimal (by omega) (by omega)
  rcases ht with rfl | rfl
  · rw [readBody, if_neg (by decide), if_neg (by decide), if_neg (by decide), if_pos rfl, hparse]
    rfl
  · rw [readBody, if_neg (by decide), if_neg (by decide), if_neg (by decide), if_neg (by decide),
      if_pos rfl, hparse]
    rfl

/-- What is read of these bytes, with the depth that they need. -/
def Reads (used : List UInt8) (res : Except Fail Value) : Prop :=
  used ≠ [] ∧ ∀ depth, used.length ≤ depth → Takes Fail.isIOException (readFrom depth) used res

theorem reads_line {t : Char} (tail : List UInt8) (ht : (jc t).val < 0x80) (h : cr ∉ line)
    (hbody : ∀ depth, tail.length ≤ depth →
      Takes Fail.isIOException (readBody (readFrom depth) (jc t) (textOf line)) tail res) :
    Reads (ascii [jc t] ++ (line ++ crlf) ++ tail) res := by
  have hlen : (ascii [jc t] ++ (line ++ crlf) ++ tail).length = line.length + 3 + tail.length := by
    simp only [List.length_append, ascii, List.length_map, crlf, List.length_cons, List.length_nil]
    omega
  constructor
  · intro hnil
    rw [hnil, List.length_nil] at hlen
    omega
  · intro depth hdepth
    rw [hlen] at hdepth
    obtain ⟨depth, rfl⟩ := Nat.exists_eq_add_of_le' (Nat.le_trans (by omega : 1 ≤ _) hdepth)
    exact takes_readFrom ht h (hbody depth (by omega))

theorem reads_header {t : Char} {n : ℤ} (tail : List UInt8) (ht : (jc t).val < 0x80)
    (hbody : ∀ depth, tail.length ≤ depth →
      Takes Fail.isIOException (readBody (readFrom depth) (jc t) (decimal n)) tail res) :
    Reads (header t n ++ tail) res := by
  rw [header_eq]
  refine reads_line tail ht (cr_not_mem_ascii_decimal n) fun depth hdepth => ?_
  rw [textOf_decimal]
  exact hbody depth hdepth

/-- A reply is read up to its first error, and the rest of it stays in the stream. -/
def Leaves (r : Reply) : Prop := ∃ used, r.wire = used ++ wires r.outcome.2 ∧ Reads used r.outcome.1

theorem exists_takes_times {l : List Reply} (h : ∀ r ∈ l, Leaves r) :
    ∃ used, wires l = used ++ wires (outcomes l).2 ∧ ∀ depth, used.length ≤ depth →
      Takes Fail.isIOException ((readFrom depth).times l.length) used (outcomes l).1 := by
  induction l with
  | nil => exact ⟨[], rfl, fun depth _ => takes_pure []⟩
  | cons r l ih =>
    obtain ⟨used, hwire, -, htakes⟩ := h r List.mem_cons_self
    have hwires : wires (r :: l) = used ++ (wires r.outcome.2 ++ wires l) := by
      rw [wires, List.flatMap_cons, hwire, List.append_assoc]
      rfl
    rcases hr : r.outcome with ⟨e | v, left⟩
    · rw [hr] at hwires htakes
      refine ⟨used, ?_, fun depth hdepth => ?_⟩
      · rw [hwires, outcomes_cons_error hr, wires_append]
      · rw [outcomes_cons_error hr]
        exact (htakes depth hdepth).bind_error
    · obtain ⟨used', hwires', htakes'⟩ := ih fun r' hr' => h r' (List.mem_cons_of_mem r hr')
      have hleft : left = [] := by
        have hleft := left_of_ok (congrArg Prod.fst hr)
        rwa [hr] at hleft
      rw [hr, hleft] at hwires
      rw [hr] at htakes
      refine ⟨used ++ used', ?_, fun depth hdepth => ?_⟩
      · rw [hwires, outcomes_cons_ok hr, hwires', List.append_assoc]
        rfl
      · rw [List.length_append] at hdepth
        rw [outcomes_cons_ok hr]
        refine (htakes depth (by omega)).bind ?_
        have hrest := htakes' depth (by omega)
        rcases hl : (outcomes l).1 with e | vs
        · rw [hl] at hrest
          exact hrest.bind_error
        · rw [hl] at hrest
          exact hrest.map (v :: ·)

theorem leaves (r : Reply) : Leaves r := by
  induction r with
  | status line h =>
    refine ⟨_, ?_, reads_line (t := '+') [] (by decide) h fun depth _ => takes_pure _⟩
    rw [Reply.wire, Reply.outcome, wires, List.flatMap_nil, List.append_nil, List.append_nil]
  | error line h =>
    refine ⟨_, ?_, reads_line (t := '-') [] (by decide) h fun depth _ => takes_raise _⟩
    rw [Reply.wire, Reply.outcome, wires, List.flatMap_nil, List.append_nil, List.append_nil]
  | int n hlow hhigh =>
    refine ⟨_, ?_, reads_header (t := ':') (n := n) [] (by decide) fun depth _ => ?_⟩
    · rw [Reply.wire, Reply.outcome, wires, List.flatMap_nil, List.append_nil, List.append_nil]
    · rw [readBody_int _ hlow hhigh]
      exact takes_pure _
  | bulk b h =>
    refine ⟨_, ?_, reads_header (t := '$') (n := b.length) (b ++ crlf) (by decide)
      fun depth _ => ?_⟩
    · rw [Reply.wire, Reply.outcome, wires, List.flatMap_nil, List.append_nil, encodeBytes,
        List.append_assoc]
    · rw [readBody_bulk _ h]
      exact (takes_readBulk b).map Value.bytes
  | nullBulk =>
    refine ⟨_, ?_, reads_header (t := '$') (n := -1) [] (by decide) fun depth _ => ?_⟩
    · rw [Reply.wire, Reply.outcome, wires, List.flatMap_nil, List.append_nil, List.append_nil]
    · rw [readBody_null _ (.inl rfl)]
      exact takes_pure _
  | array n elements ih =>
    have hall : ∀ r ∈ List.ofFn elements, Leaves r := by
      intro r hr
      obtain ⟨i, rfl⟩ := List.mem_ofFn.1 hr
      exact ih i
    obtain ⟨used, hwires, htakes⟩ := exists_takes_times hall
    rw [Leaves, wire_array, outcome_array, hwires]
    refine ⟨_, (List.append_assoc ..).symm,
      reads_header (t := '*') (n := n.val) used (by decide) fun depth hdepth => ?_⟩
    rw [readBody_array _ n.isLt]
    have hrest := htakes depth hdepth
    rw [List.length_ofFn] at hrest
    rcases hl : (outcomes (List.ofFn elements)).1 with e | vs
    · rw [hl] at hrest
      exact hrest.bind_error
    · rw [hl] at hrest
      exact hrest.map Value.list
  | nullArray =>
    refine ⟨_, ?_, reads_header (t := '*') (n := -1) [] (by decide) fun depth _ => ?_⟩
    · rw [Reply.wire, Reply.outcome, wires, List.flatMap_nil, List.append_nil, List.append_nil]
    · rw [readBody_null _ (.inr rfl)]
      exact takes_pure _

theorem Reads.takes {used : List UInt8} {res : Except Fail Value} (h : Reads used res) :
    Takes Fail.isIOException read used res where
  whole rest := by
    rw [read_eq (Nat.le_refl _)]
    exact (h.2 _ (by rw [List.length_append]; omega)).whole rest
  cut p hp hne := by
    rw [read_eq hp.length_le]
    exact (h.2 _ (Nat.le_refl _)).cut p hp hne

/-- What `read` does at a reply. -/
theorem exists_takes (r : Reply) :
    ∃ used, r.wire = used ++ wires r.outcome.2 ∧ Takes Fail.isIOException read used r.outcome.1 := by
  obtain ⟨used, hwire, hreads⟩ := leaves r
  exact ⟨used, hwire, hreads.takes⟩

/-! ## Requests -/

/-- The arguments of a request, in the sizes that an array of Java has. -/
structure Request where
  args : List Arg
  count_lt : args.length < 2 ^ 31
  length_lt : ∀ a ∈ args, a.toBytes.length < 2 ^ 31

namespace Request

def bytes (r : Request) : List UInt8 := encode r.args

/-- The reply that is written like the request. -/
def reply (r : Request) : Reply :=
  .array ⟨r.args.length, r.count_lt⟩ fun i =>
    .bulk (r.args.get i).toBytes (r.length_lt _ (List.get_mem _ _))

/-- The arguments as they are read. -/
def value (r : Request) : Value := .list (r.args.map fun a => .bytes a.toBytes)

theorem wire_reply (r : Request) : r.reply.wire = r.bytes := by
  have hwires : (List.ofFn fun i => (Reply.bulk (r.args.get i).toBytes
      (r.length_lt _ (List.get_mem _ _))).wire) = r.args.map fun a => encodeBytes a.toBytes := by
    simp only [Reply.wire]
    exact List.ofFn_getElem_eq_map r.args fun a => encodeBytes a.toBytes
  rw [reply, Reply.wire, hwires, bytes, encode, List.flatMap_def]

theorem outcomes_bulks {l : List Reply} {values : List Value}
    (h : l.map Reply.outcome = values.map fun v => (.ok v, [])) : outcomes l = (.ok values, []) := by
  induction l generalizing values with
  | nil =>
    obtain rfl := List.map_eq_nil_iff.1 h.symm
    rfl
  | cons r l ih =>
    cases values with
    | nil => cases h
    | cons v values =>
      obtain ⟨hr, hl⟩ := List.cons.inj h
      rw [outcomes_cons_ok hr, ih hl]
      rfl

theorem outcome_reply (r : Request) : r.reply.outcome = (.ok r.value, []) := by
  have houtcomes : (List.ofFn fun i => Reply.bulk (r.args.get i).toBytes
      (r.length_lt _ (List.get_mem _ _))).map Reply.outcome =
        (r.args.map fun a => Value.bytes a.toBytes).map fun v => (.ok v, []) := by
    rw [List.map_ofFn, List.map_map]
    exact List.ofFn_getElem_eq_map r.args fun a =>
      ((Except.ok (Value.bytes a.toBytes) : Except Fail Value), ([] : List Reply))
  rw [reply, outcome_array, outcomes_bulks houtcomes]
  rfl

theorem takes_read (r : Request) : Takes Fail.isIOException read r.bytes (.ok r.value) := by
  obtain ⟨used, hwire, htakes⟩ := exists_takes r.reply
  rw [wire_reply, outcome_reply] at hwire
  rw [outcome_reply] at htakes
  rw [hwire]
  simpa [wires] using htakes

end Request

/-- **Requests are framed by their lengths alone.** The bytes of any requests, one after the other,
are read back as their arguments, whatever bytes these hold and whatever follows, and no beginning of
these bytes is read as the requests. -/
theorem takes_requests (requests : List Request) :
    Takes Fail.isIOException (read.times requests.length) (requests.flatMap Request.bytes)
      (.ok (requests.map Request.value)) := by
  induction requests with
  | nil => exact takes_pure []
  | cons r requests ih =>
    rw [List.flatMap_cons]
    exact r.takes_read.bind (ih.map (r.value :: ·))

end RagLeap.Rag.Resp
