import RagLeap.Rag.MimeLines

/-!
# Composing a MIME message

A `Part` is a leaf, or a multipart with a boundary and parts of its own; `Part.text` writes it down
with `"\r\n"` or `"\n"` at the ends of the lines. `Nests` says what must hold for the parts of every
multipart: no line of theirs starts with the delimiter, and there are not too many levels. `Reads`
says that an entity which `parse` gave for a text is a part, headers and body.
-/

namespace RagLeap.Rag.Mime

open Scan CrLf

/-! ## Line ends and headers -/

inductive Eol
  | crlf
  | lf
  deriving DecidableEq

def Eol.text : Eol → Text
  | .crlf => [cr, Mime.lf]
  | .lf => [Mime.lf]

theorem isEnd_eol (eol : Eol) : IsEnd cr lf eol.text := by
  cases eol with
  | crlf => exact isEnd_crlf
  | lf => exact isEnd_lf (by decide)

theorem eol_ne_nil (eol : Eol) : eol.text ≠ [] := by
  cases eol with
  | crlf => exact List.cons_ne_nil _ _
  | lf => exact List.cons_ne_nil _ _

/-- A header as it is written, on one line or with further ones that start with a blank. -/
structure Field where
  name : Text
  first : Text
  more : List Text
  name_ne : name ≠ []
  name_ok : ∀ c ∈ name, isNameChar c = true ∧ c ≠ ch ':'
  first_ok : ∀ c ∈ first, isBreak cr lf c = false
  first_head : ∀ c ∈ first.head?, isBlank c = false
  more_ok : ∀ t ∈ more, (∀ c ∈ t, isBreak cr lf c = false) ∧ ∃ c ∈ t.head?, isBlank c = true

namespace Field

def firstLine (f : Field) : Text := f.name ++ ch ':' :: ch ' ' :: f.first

def text (eol : Eol) (f : Field) : Text := (f.firstLine :: f.more).flatMap (· ++ eol.text)

/-- The header that is read. -/
def header (f : Field) : Header := ⟨f.name, f.first ++ f.more.flatten⟩

end Field

/-! ## Multiparts -/

/-- A text between quotes. -/
def quote (b : Text) : Text :=
  b.flatMap fun c => if c = ch '"' ∨ c = ch '\\' then [ch '\\', c] else [c]

/-- What the header of a multipart declares. -/
structure Multipart where
  sub : Text
  boundary : Text
  sub_ok : ∀ c ∈ sub, isBreak cr lf c = false ∧ c ≠ ch '/' ∧ c ≠ ch ';'
  boundary_ok : ∀ c ∈ boundary, isBreak cr lf c = false

namespace Multipart

def delim (d : Multipart) : Text := lit "--" ++ d.boundary

/-- The value of the header. -/
def value (d : Multipart) : Text :=
  lit "multipart/" ++ d.sub ++
    ch ';' :: ch ' ' :: (lit "boundary" ++ ch '=' :: ch '"' :: (quote d.boundary ++ [ch '"']))

theorem isBreak_quote (d : Multipart) : ∀ c ∈ quote d.boundary, isBreak cr lf c = false := by
  intro c hc
  obtain ⟨b, hb, hcb⟩ := List.mem_flatMap.1 hc
  split_ifs at hcb with hesc
  · rcases List.mem_cons.1 hcb with rfl | hcb
    · decide
    · rw [List.mem_singleton.1 hcb]
      exact d.boundary_ok b hb
  · rw [List.mem_singleton.1 hcb]
    exact d.boundary_ok b hb

theorem isBreak_value (d : Multipart) : ∀ c ∈ d.value, isBreak cr lf c = false := by
  have hlit : ∀ c ∈ lit "multipart/", isBreak cr lf c = false := by decide +kernel
  have hname : ∀ c ∈ lit "boundary", isBreak cr lf c = false := by decide +kernel
  intro c hc
  simp only [value, List.mem_append, List.mem_cons, List.not_mem_nil, or_false] at hc
  rcases hc with (hc | hc) | hc | hc | hc | hc | hc | hc | hc
  · exact hlit c hc
  · exact (d.sub_ok c hc).1
  · rw [hc]; decide
  · rw [hc]; decide
  · exact hname c hc
  · rw [hc]; decide
  · rw [hc]; decide
  · exact d.isBreak_quote c hc
  · rw [hc]; decide

/-- The header of the multipart. -/
def field (d : Multipart) : Field where
  name := lit "Content-Type"
  first := d.value
  more := []
  name_ne := by decide
  name_ok := by decide +kernel
  first_ok := d.isBreak_value
  first_head := fun c hc => by
    have hm : d.value.head? = some (ch 'm') := rfl
    rw [← Option.some.inj (hm.symm.trans hc)]
    decide
  more_ok := nofun

end Multipart

/-- A message, or a part of one. -/
inductive Part
  | leaf (fields : List Field) (body : Text)
  | multi (before : List Field) (d : Multipart) (after : List Field) (parts : List Part)
    (epilogue : Text)

namespace Part

def fields : Part → List Field
  | .leaf fields _ => fields
  | .multi before d after _ _ => before ++ d.field :: after

/-- The headers and the blank line behind them. -/
def head (eol : Eol) (p : Part) : Text := p.fields.flatMap (Field.text eol) ++ eol.text

mutual

def body (eol : Eol) : Part → Text
  | .leaf _ body => body
  | .multi _ d _ parts epilogue => sections eol d.delim parts ++ (d.delim ++ lit "--" ++ epilogue)

/-- Parts, each behind a delimiter and in front of the line break of the next one. -/
def sections (eol : Eol) (delim : Text) : List Part → Text
  | [] => []
  | p :: ps =>
    delim ++ (eol.text ++ (head eol p ++ body eol p ++ (eol.text ++ sections eol delim ps)))

end

/-- **The composed message.** -/
def text (eol : Eol) (p : Part) : Text := p.head eol ++ p.body eol

end Part

/-- A part whose multiparts can be told apart: no line inside a part starts with the delimiter, and
there are at most `n` levels. `Also` is what else is asked of every multipart. -/
inductive Nests (eol : Eol) (Also : Multipart → List Part → Prop) : ℕ → Part → Prop
  | leaf {n : ℕ} {fields : List Field} {body : Text} : Nests eol Also n (.leaf fields body)
  | multi {n : ℕ} {before after : List Field} {d : Multipart} {parts : List Part}
      {epilogue : Text}
      (before_ok : ∀ f ∈ before, equalsIgnoreCase f.name (lit "content-type") = false)
      (epilogue_ok : ∀ c ∈ epilogue.head?, isBreak cr lf c = true)
      (lines_ok : ∀ p ∈ parts, ∀ l ∈ lines cr lf (p.text eol), ¬d.delim <+: l.text)
      (also : Also d parts) (parts_ok : ∀ p ∈ parts, Nests eol Also n p) :
      Nests eol Also (n + 1) (.multi before d after parts epilogue)

/-- The boundary ends in a character that is no white space, and no part in the `'\r'` of a line
break that would go on with the delimiter's. -/
def Kept (eol : Eol) (d : Multipart) (parts : List Part) : Prop :=
  (∃ c ∈ d.boundary.getLast?, isWhitespace c = false) ∧
    (eol = .lf → ∀ p ∈ parts, (p.text eol).getLast? ≠ some cr)

/-- The entity of this text is this part: it has its headers, its body and its parts. -/
inductive Reads (text : Text) (eol : Eol) : Part → Entity → Prop
  | leaf {fields : List Field} {body : Text} {e : Entity}
      (headers : e.headers = fields.map Field.header) (body_eq : e.body text = some body)
      (parts_eq : (∀ t, contentType e.headers = some t → ¬lit "multipart/" <+: t) →
        e.parts = none) :
      Reads text eol (.leaf fields body) e
  | multi {before after : List Field} {d : Multipart} {parts : List Part} {epilogue : Text}
      {e : Entity} {es : List Entity}
      (headers : e.headers = (before ++ d.field :: after).map Field.header)
      (body_eq : e.body text = some (Part.body eol (.multi before d after parts epilogue)))
      (parts_eq : e.parts = some es) (parts_read : List.Forall₂ (Reads text eol) parts es) :
      Reads text eol (.multi before d after parts epilogue) e

end RagLeap.Rag.Mime
