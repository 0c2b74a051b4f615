import Mathlib.Data.Int.Notation
import RagLeap.Foundations.JavaText
import RagLeap.Foundations.Regex

/-!
# RTF to text, in the port

`RtfConverter.java`: a regular expression writes the destinations of hyperlinks behind the links,
another one cuts the text into tokens, and a loop over the tokens keeps a stack of groups, counters
of characters to be skipped and the bytes of hexadecimal escapes that are still to be decoded.
-/

namespace RagLeap.Rag.Rtf

open JStr

/-! ## The tables -/

/-- Control words that start a group whose content is not document text. -/
def DESTINATIONS : List JStr :=
  ["aftncn", "aftnsep", "aftnsepc", "annotation", "atnauthor", "atndate", "atnicn", "atnid",
    "atnparent", "atnref", "atntime", "atrfend", "atrfstart", "author", "background", "bkmkend",
    "bkmkstart", "blipuid", "buptim", "category", "colorschememapping", "colortbl", "comment",
    "company", "creatim", "datafield", "datastore", "defchp", "defpap", "do", "doccomm", "docvar",
    "dptxbxtext", "ebcend", "ebcstart", "factoidname", "falt", "fchars", "ffdeftext",
    "ffentrymcr", "ffexitmcr", "ffformat", "ffhelptext", "ffl", "ffname", "ffstattext", "file",
    "filetbl", "fldinst", "fldtype", "fname", "fontemb", "fontfile", "fonttbl", "footer",
    "footerf", "footerl", "footerr", "footnote", "formfield", "ftncn", "ftnsep", "ftnsepc", "g",
    "generator", "gridtbl", "header", "headerf", "headerl", "headerr", "hl", "hlfr", "hlinkbase",
    "hlloc", "hlsrc", "hsv", "htmltag", "info", "keycode", "keywords", "latentstyles", "lchars",
    "levelnumbers", "leveltext", "lfolevel", "linkval", "list", "listlevel", "listname",
    "listoverride", "listoverridetable", "listpicture", "liststylename", "listtable", "listtext",
    "lsdlockedexcept", "macc", "maccPr", "mailmerge", "maln", "malnScr", "manager", "margPr",
    "mbar", "mbarPr", "mbaseJc", "mbegChr", "mborderBox", "mborderBoxPr", "mbox", "mboxPr",
    "mchr", "mcount", "mctrlPr", "md", "mdeg", "mdegHide", "mden", "mdiff", "mdPr", "me",
    "mendChr", "meqArr", "meqArrPr", "mf", "mfName", "mfPr", "mfunc", "mfuncPr", "mgroupChr",
    "mgroupChrPr", "mgrow", "mhideBot", "mhideLeft", "mhideRight", "mhideTop", "mhtmltag", "mlim",
    "mlimloc", "mlimlow", "mlimlowPr", "mlimupp", "mlimuppPr", "mm", "mmaddfieldname", "mmath",
    "mmathPict", "mmathPr", "mmaxdist", "mmc", "mmcJc", "mmconnectstr", "mmconnectstrdata",
    "mmcPr", "mmcs", "mmdatasource", "mmheadersource", "mmmailsubject", "mmodso", "mmodsofilter",
    "mmodsofldmpdata", "mmodsomappedname", "mmodsoname", "mmodsorecipdata", "mmodsosort",
    "mmodsosrc", "mmodsotable", "mmodsoudl", "mmodsoudldata", "mmodsouniquetag", "mmPr",
    "mmquery", "mmr", "mnary", "mnaryPr", "mnoBreak", "mnum", "mobjDist", "moMath", "moMathPara",
    "moMathParaPr", "mopEmu", "mphant", "mphantPr", "mplcHide", "mpos", "mr", "mrad", "mradPr",
    "mrPr", "msepChr", "mshow", "mshp", "msPre", "msPrePr", "msSub", "msSubPr", "msSubSup",
    "msSubSupPr", "msSup", "msSupPr", "mstrikeBLTR", "mstrikeH", "mstrikeTLBR", "mstrikeV",
    "msub", "msubHide", "msup", "msupHide", "mtransp", "mtype", "mvertJc", "mvfmf", "mvfml",
    "mvtof", "mvtol", "mzeroAsc", "mzeroDesc", "mzeroWid", "nesttableprops", "nextfile",
    "nonesttables", "objalias", "objclass", "objdata", "object", "objname", "objsect", "objtime",
    "oldcprops", "oldpprops", "oldsprops", "oldtprops", "oleclsid", "operator", "panose",
    "password", "passwordhash", "pgp", "pgptbl", "picprop", "pict", "pn", "pnseclvl", "pntext",
    "pntxta", "pntxtb", "printim", "private", "propname", "protend", "protstart", "protusertbl",
    "pxe", "result", "revtbl", "revtim", "rsidtbl", "rxe", "shp", "shpgrp", "shpinst", "shppict",
    "shprslt", "shptxt", "sn", "sp", "staticval", "stylesheet", "subject", "sv", "svb", "tc",
    "template", "themedata", "title", "txe", "ud", "upr", "userprops", "wgrffmtfilter",
    "windowcaption", "writereservation", "writereservhash", "xe", "xform", "xmlattrname",
    "xmlattrvalue", "xmlclose", "xmlname", "xmlnstbl", "xmlopen"].map lit

/-- Translation of some special characters and control words. -/
def SPECIAL : List (JStr × JStr) :=
  [("par", "\n"), ("sect", "\n\n"), ("page", "\n\n"), ("line", "\n"), ("tab", "\t"),
    ("emdash", "\u2014"), ("endash", "\u2013"), ("emspace", "\u2003"), ("enspace", "\u2002"),
    ("qmspace", "\u2005"), ("bullet", "\u2022"), ("lquote", "\u2018"), ("rquote", "\u2019"),
    ("ldblquote", "\u201C"), ("rdblquote", "\u201D"), ("row", "\n"), ("cell", "|"),
    ("nestcell", "|"), ("~", "\u00A0"), ("\n", "\n"), ("\r", "\r"), ("\x7b", "\x7b"),
    ("\x7d", "\x7d"), ("\\", "\\"), ("-", "\u00AD"), ("_", "\u2011")].map
      fun e => (lit e.1, lit e.2)

/-! ## Hyperlinks -/

/-- A text of the pattern, without regard to case. -/
def literal (s : String) : Rx JChar :=
  .letters (s.toList.map fun c d => fold d == fold (jc c))

/-- Any character of a line. -/
def dot (c : JChar) : Bool := c ≠ jc '\n'

def brace (c : JChar) : Bool := c = jc '\x7d'

/-- `\{\\field\{\s*\\\*\\fldinst\{.*HYPERLINK\s` -/
def beforeUrl : Rx JChar :=
  .seq (literal "\x7b\\field\x7b") (.seq (.many isSpace 0 none false)
    (.seq (literal "\\*\\fldinst\x7b") (.seq (.many dot 0 none false)
      (.seq (literal "HYPERLINK") (.many isSpace 1 (some 1) false)))))

/-- `".*"` -/
def url : Rx JChar := .seq (literal "\"") (.seq (.many dot 0 none false) (literal "\""))

/-- `\}{2}\s*\{.*?\s+(.*?)\}{2,3}` -/
def afterUrl : Rx JChar :=
  .seq (.many brace 2 (some 2) false) (.seq (.many isSpace 0 none false) (.seq (literal "\x7b")
    (.seq (.many dot 0 none true) (.seq (.many isSpace 1 none false)
      (.seq (.many dot 0 none true) (.many brace 2 (some 3) false))))))

/-- The length of the first match of `HYPERLINKS` at the start, and the text of its group `2`. -/
def findLink (s : JStr) : Option (ℕ × JStr) :=
  let ends := Rx.ends fun _ => false
  ((ends beforeUrl (none, s)).flatMap fun c => (ends url c).flatMap fun d =>
    (ends afterUrl d).map fun e =>
      (s.length - e.2.length, c.2.take (c.2.length - d.2.length))).head?

/-- `HYPERLINKS.matcher(input).replaceAll("$1($2)")`, with the characters of a match still to be
skipped. -/
def addLinksFrom : ℕ → JStr → JStr
  | _, [] => []
  | skip + 1, _ :: s => addLinksFrom skip s
  | 0, c :: s =>
    match findLink (c :: s) with
    | some (n + 1, dest) => c :: s.take n ++ lit "(" ++ dest ++ lit ")" ++ addLinksFrom n s
    | _ => c :: addLinksFrom 0 s

def addLinks (input : JStr) : JStr := addLinksFrom 0 input

/-! ## Tokens -/

inductive Token
  | word (w : JStr) (arg : Option JStr)
  | hex (h : JStr)
  | escaped (c : JStr)
  | opening
  | closing
  | breaks
  | char (c : JStr)

/-- A number at the start of the text, or nothing. -/
def number : JStr → JStr
  | [] => []
  | c :: s =>
    if c = jc '-' then
      let digits := (s.take 10).takeWhile isDigit
      if digits = [] then [] else c :: digits
    else ((c :: s).take 10).takeWhile isDigit

/-- A control word behind its backslash: letters, a number and a space. -/
def controlWord (s : JStr) : Token × JStr :=
  let word := (s.take 32).takeWhile isLetter
  let rest := s.drop word.length
  let arg := number rest
  let rest := rest.drop arg.length
  (.word word (if arg = [] then none else some arg),
    if rest.head? = some (jc ' ') then rest.drop 1 else rest)

/-- A control character behind its backslash. -/
def controlSymbol (s : JStr) : Token × JStr :=
  let h := (s.drop 1).take 2
  if s.head? = some (jc '\'') ∧ h.length = 2 ∧ h.all isHexDigit then (.hex h, s.drop 3)
  else (.escaped (firstCodePoint s), s.drop (firstCodePoint s).length)

def isBreak (c : JChar) : Bool := c = jc '\r' || c = jc '\n'

/-- The first match of `TOKEN`, and what follows it. -/
def token : JStr → Option (Token × JStr)
  | [] => none
  | c :: s =>
    if c = jc '\\' then
      match s with
      | [] => some (.char [c], [])
      | d :: s => some (if isLetter d then controlWord (d :: s) else controlSymbol (d :: s))
    else if c = jc '\x7b' then some (.opening, s)
    else if c = jc '\x7d' then some (.closing, s)
    else if isBreak c then some (.breaks, s.dropWhile isBreak)
    else some (.char (firstCodePoint (c :: s)), (c :: s).drop (firstCodePoint (c :: s)).length)

/-- The tokens of a text, in at most `n` matches. -/
def tokenize : ℕ → JStr → List Token
  | 0, _ => []
  | n + 1, s =>
    match token s with
    | none => []
    | some (t, rest) => t :: tokenize n rest

def tokens (s : JStr) : List Token := tokenize s.length s

/-! ## The loop -/

/-- The character sets of the platform: what `Charset.forName` finds, and what a decoder that
reports errors makes of bytes. -/
structure Charsets (C : Type) where
  forName : JStr → Option C
  utf8 : C
  windows1252 : C
  decode : C → List ℕ → Option JStr

/-- `IllegalArgumentException`: `\uc` without a number, a code point that is none, or bytes that are
no text. -/
inductive Error (C : Type)
  | noArgument
  | outOfRange (arg : JStr)
  | undecodable (encoding : C)

variable {C : Type} (cs : Charsets C)

/-- The state of the loop; `hexes` has the digits of the bytes that are still to be decoded. -/
structure State (C : Type) where
  stack : List (ℤ × Bool)
  ignorable : Bool
  ucskip : ℤ
  curskip : ℤ
  hexes : Option JStr
  encoding : C
  out : JStr

def State.initial : State C := ⟨[], false, 1, 0, none, cs.windows1252, []⟩

/-- `Integer.parseInt(h, 16)` of one digit. -/
def hexValue (c : JChar) : ℕ :=
  if isDigit c then c.val - 0x30 else (fold c).val - 0x61 + 10

def hexBytes : JStr → List ℕ
  | c :: d :: s => (hexValue c * 16 + hexValue d) :: hexBytes s
  | _ => []

/-- The bytes that are pending are decoded. -/
def flush (st : State C) : Except (Error C) (State C) :=
  match st.hexes with
  | none => .ok st
  | some hexes =>
    match cs.decode st.encoding (hexBytes hexes) with
    | none => .error (.undecodable st.encoding)
    | some w => .ok { st with out := st.out ++ w, hexes := none }

def charsetForCodepage (arg : Option JStr) : C :=
  match arg with
  | none => cs.utf8
  | some arg =>
    if arg = lit "65001" then cs.utf8
    else
      let candidates := ["cp", "windows-", "x-windows-", "ms", "x-mswin-"]
      (candidates.findSome? fun name => cs.forName (lit name ++ arg)).getD cs.utf8

/-- A character that is shown, skipped, or in no text. -/
def State.show (st : State C) (c : JStr) : State C :=
  if 0 < st.curskip then { st with curskip := st.curskip - 1 }
  else if st.ignorable then st
  else { st with out := st.out ++ c }

/-- `\uN` -/
def unicode (st : State C) (arg : Option JStr) : Except (Error C) (State C) :=
  match arg with
  | none => .ok { st with curskip := st.ucskip }
  | some arg =>
    let c := if parseDecimal arg < 0 then parseDecimal arg + 0x10000 else parseDecimal arg
    if c < 0 ∨ 0x10FFFF < c then .error (.outOfRange arg)
    else .ok { st with out := st.out ++ ofCodePoint c.toNat, curskip := st.ucskip }

/-- A control word. -/
def onWord (st : State C) (word : JStr) (arg : Option JStr) : Except (Error C) (State C) :=
  let st := { st with curskip := 0 }
  let st :=
    if word ∈ DESTINATIONS then { st with ignorable := true }
    else if word = lit "ansicpg" then { st with encoding := charsetForCodepage cs arg }
    else st
  if st.ignorable then .ok st
  else
    match SPECIAL.lookup word with
    | some special => .ok { st with out := st.out ++ special }
    | none =>
      if word = lit "uc" then
        match arg with
        | none => .error .noArgument
        | some arg => .ok { st with ucskip := parseDecimal arg }
      else if word = lit "u" then unicode st arg
      else .ok st

/-- A token that is no hexadecimal escape. -/
def onToken (st : State C) : Token → Except (Error C) (State C)
  | .opening =>
    .ok { st with curskip := 0, stack := (st.ucskip, st.ignorable) :: st.stack }
  | .closing =>
    match st.stack with
    | (ucskip, ignorable) :: stack => .ok { st with curskip := 0, ucskip, ignorable, stack }
    | [] => .ok { st with curskip := 0, ucskip := 0, ignorable := true }
  | .escaped c =>
    let st := { st with curskip := 0 }
    match SPECIAL.lookup c with
    | some special => .ok (if st.ignorable then st else { st with out := st.out ++ special })
    | none => .ok (if c = lit "*" then { st with ignorable := true } else st)
  | .word w arg => onWord cs st w arg
  | .char c => .ok (st.show c)
  | .breaks | .hex _ => .ok st

/-- A byte to be decoded. -/
def onHex (st : State C) (h : JStr) : State C :=
  if 0 < st.curskip then { st with curskip := st.curskip - 1 }
  else if st.ignorable then st
  else { st with hexes := some (st.hexes.getD [] ++ h) }

/-- The body of the loop. -/
def step (st : State C) : Token → Except (Error C) (State C)
  | .hex h => .ok (onHex st h)
  | t => (flush cs st).bind fun st => onToken cs st t

def rtfToText (input : JStr) : Except (Error C) JStr :=
  ((tokens (addLinks input)).foldlM (step cs) (.initial cs)).map State.out

end RagLeap.Rag.Rtf
