import RagLeap.Foundations.Decimal
import RagLeap.Foundations.Lines
import RagLeap.Foundations.Split
import RagLeap.Foundations.Utf8

/-!
# Subtitles

`_extract_subtitle` (`ragleap.parsers`) goes through the lines of a `.vtt` or `.srt` file and leaves
out those that look like structure: blank ones, `WEBVTT`, numbers and time ranges. A `Cue` is
rendered as its number, its time range and its lines of text.

What is rendered is extracted exactly if no line of text looks like structure itself, or holds a
line break that the format does not know (`extractSubtitle_render_iff`).
-/

namespace RagLeap.Rag

open PyStr Str

/-! ## Extraction -/

/-- The characters that `str.isdigit` takes. -/
structure DigitChars where
  isDigit : Char → Bool
  ascii : ∀ c : Char, c.isDigit = true → isDigit c = true

/-- The characters of a string without surrogates. -/
def chars (s : PyStr) : Str := s.map fun c => Char.ofNat c.val

/-- `_extract_txt`. -/
def extractTxt (raw_bytes : List UInt8) : Str :=
  match decodeUtf8 raw_bytes with
  | some s => chars s
  | none => raw_bytes.map fun b => Char.ofNat b.toNat

/-- `"WEBVTT"`. -/
def webvtt : Str := "WEBVTT".toList

/-- `"-->"`. -/
def arrow : Str := ['-', '-', '>']

/-- A stripped line that is kept. -/
def kept (digits : DigitChars) (stripped : Str) : Bool :=
  stripped ≠ [] && stripped ≠ webvtt && !stripped.all digits.isDigit &&
    !decide (arrow <:+: stripped)

/-- `_extract_subtitle`. -/
def extractSubtitle (digits : DigitChars) (raw_bytes : List UInt8) : Str :=
  joinSep ['\n'] (((splitlines (extractTxt raw_bytes)).map strip).filter (kept digits))

/-! ## Subtitle files -/

/-- A cue: its times in milliseconds, and its lines of text. -/
structure Cue where
  index : ℕ
  start : ℕ
  stop : ℕ
  text : List Str
  index_pos : 0 < index
  text_ne : text ≠ []
  line_ok : ∀ l ∈ text, strip l ≠ [] ∧ ∀ c ∈ l, c ≠ '\n' ∧ c ≠ '\r'

/-- The two kinds of files. -/
inductive Format
  | srt
  | vtt

/-- The mark before the milliseconds. -/
def Format.mark : Format → Char
  | srt => ','
  | vtt => '.'

/-- The lines before the cues. -/
def Format.header : Format → List Str
  | srt => []
  | vtt => [webvtt, []]

/-- A number with leading zeros. -/
def padded (width n : ℕ) : Str := List.replicate (width - (ofNat n).length) '0' ++ ofNat n

/-- A time in hours, minutes, seconds and milliseconds. -/
def timestamp (mark : Char) (t : ℕ) : Str :=
  padded 2 (t / 3600000) ++ ':' :: padded 2 (t / 60000 % 60) ++ ':' :: padded 2 (t / 1000 % 60) ++
    mark :: padded 3 (t % 1000)

def Cue.range (mark : Char) (cue : Cue) : Str :=
  timestamp mark cue.start ++ [' '] ++ arrow ++ [' '] ++ timestamp mark cue.stop

/-- The lines of a cue and the blank line after it. -/
def Cue.lines (mark : Char) (cue : Cue) : List Str :=
  ofNat cue.index :: cue.range mark :: cue.text ++ [[]]

/-- A file of cues. -/
def render (format : Format) (e : LineEnd) (cues : List Cue) : List UInt8 :=
  encodeUtf8 (RagLeap.text
    (ended e (format.header ++ cues.flatMap (Cue.lines format.mark))))

variable {digits : DigitChars}

theorem chars_text (s : Str) : chars (RagLeap.text s) = s := by
  rw [chars, RagLeap.text, List.map_map]
  refine (List.map_congr_left fun c _ => ?_).trans (List.map_id s)
  exact Char.ofNat_toNat c

theorem extractTxt_encode (s : Str) : extractTxt (encodeUtf8 (RagLeap.text s)) = s := by
  have hs : ∀ c ∈ RagLeap.text s, isSurrogate c = false := by
    intro c hc
    obtain ⟨d, -, rfl⟩ := List.mem_map.1 hc
    exact isSurrogate_ch d
  rw [extractTxt, decodeUtf8_encodeUtf8 hs]
  exact chars_text s

/-! ## What is kept of a line -/

/-- The kept pieces of a line. -/
def keptOf (digits : DigitChars) (l : Str) : List Str := (pieces l).filter (kept digits)

theorem kept_iff {l : Str} : kept digits l = true ↔
    l ≠ [] ∧ l ≠ webvtt ∧ ¬ l.all digits.isDigit = true ∧ ¬ arrow <:+: l := by
  simp [kept, and_assoc]

theorem filter_kept_splitOnP (l : Str) :
    ((l.splitOnP isBreak).map strip).filter (kept digits) = keptOf digits l := by
  rw [keptOf, pieces, List.filter_filter]
  refine List.filter_congr fun p _ => ?_
  by_cases hp : p = []
  · simp [hp, kept]
  · simp [hp]

theorem extractSubtitle_encode (e : LineEnd) {ls : List Str}
    (h : ∀ l ∈ ls, ∀ c ∈ l, c ≠ '\n' ∧ c ≠ '\r') :
    extractSubtitle digits (encodeUtf8 (RagLeap.text (ended e ls))) =
      joinSep ['\n'] (ls.flatMap (keptOf digits)) := by
  rw [extractSubtitle, extractTxt_encode, splitlines_ended e h]
  congr 1
  induction ls with
  | nil => rfl
  | cons l ls ih =>
    have hrest := ih fun l' hl' => h l' (List.mem_cons_of_mem l hl')
    rw [List.flatMap_cons, List.map_append, List.filter_append, hrest, filter_kept_splitOnP,
      List.flatMap_cons]

/-- A stripped line without breaks that is not kept leaves nothing. -/
theorem keptOf_eq_nil {l : Str} (hstrip : strip l = l) (hbreak : ∀ c ∈ l, isBreak c = false)
    (h : kept digits l = false) : keptOf digits l = [] := by
  by_cases hl : l = []
  · subst hl
    rfl
  · have hone := pieces_eq_singleton (l := l) (by rwa [hstrip]) (by rwa [hstrip])
    rw [hstrip] at hone
    rw [keptOf, hone]
    simp [h]

/-! ## Lines of structure -/

theorem toNat_of_isDigit {c : Char} (h : c.isDigit = true) : 48 ≤ c.toNat ∧ c.toNat ≤ 57 := by
  simp only [Char.isDigit, Bool.and_eq_true, decide_eq_true_eq] at h
  exact h

theorem not_isSpace_of_isDigit {c : Char} (h : c.isDigit = true) : isSpace c = false := by
  have hval := toNat_of_isDigit h
  rw [Bool.eq_false_iff]
  simp only [isSpace, ne_eq, Bool.or_eq_true, Bool.and_eq_true, decide_eq_true_eq, beq_iff_eq]
  omega

theorem not_isBreak_of_not_isSpace {c : Char} (h : isSpace c = false) : isBreak c = false := by
  rw [Bool.eq_false_iff] at h ⊢
  exact fun hc => h (isSpace_of_isBreak hc)

/-- Digits and the marks between them. -/
def Solid (l : Str) : Prop := ∀ c ∈ l, c.isDigit = true ∨ c ∈ [':', ',', '.']

theorem Solid.not_isSpace {l : Str} (h : Solid l) {c : Char} (hc : c ∈ l) : isSpace c = false := by
  rcases h c hc with hdigit | hmark
  · exact not_isSpace_of_isDigit hdigit
  · have hall : [':', ',', '.'].all (fun c => !isSpace c) = true := by decide
    simpa using List.all_eq_true.1 hall c hmark

theorem solid_ofNat (n : ℕ) : Solid (ofNat n) := fun _ hc => .inl (isDigit_of_mem_ofNat hc)

theorem solid_padded (width n : ℕ) : Solid (padded width n) := by
  intro c hc
  rcases List.mem_append.1 hc with hc | hc
  · rw [(List.mem_replicate.1 hc).2]
    exact .inl (by decide)
  · exact solid_ofNat n c hc

theorem solid_timestamp (format : Format) (t : ℕ) : Solid (timestamp format.mark t) := by
  have hcolon : Solid [':'] := by simp [Solid]
  have hmark : Solid [format.mark] := by cases format <;> simp [Solid, Format.mark]
  intro c hc
  simp only [timestamp, List.mem_append, List.mem_cons] at hc
  rcases hc with ((hc | hc | hc) | hc | hc) | hc | hc
  · exact solid_padded _ _ c hc
  · exact hcolon c (by simp [hc])
  · exact solid_padded _ _ c hc
  · exact hcolon c (by simp [hc])
  · exact solid_padded _ _ c hc
  · exact hmark c (by simp [hc])
  · exact solid_padded _ _ c hc

theorem timestamp_ne_nil (mark : Char) (t : ℕ) : timestamp mark t ≠ [] := by
  simp [timestamp]

/-- A number is no text. -/
theorem keptOf_ofNat (n : ℕ) : keptOf digits (ofNat n) = [] := by
  have hsolid := solid_ofNat n
  refine keptOf_eq_nil (strip_eq_self (fun c hc => ?_) fun c hc => ?_)
    (fun c hc => not_isBreak_of_not_isSpace (hsolid.not_isSpace hc)) ?_
  · exact hsolid.not_isSpace (List.mem_of_mem_head? hc)
  · exact hsolid.not_isSpace (List.mem_of_mem_getLast? hc)
  · have hall : (ofNat n).all digits.isDigit = true :=
      List.all_eq_true.2 fun c hc => digits.ascii c (isDigit_of_mem_ofNat hc)
    simp [kept, hall]

theorem not_isBreak_of_mem_range {format : Format} {cue : Cue} {c : Char}
    (h : c ∈ cue.range format.mark) : isBreak c = false := by
  have hbetween : ([' '] ++ arrow ++ [' ']).all (fun c => !isBreak c) = true := by decide
  simp only [Cue.range, List.append_assoc, List.mem_append] at h
  rcases h with h | h | h | h | h
  · exact not_isBreak_of_not_isSpace ((solid_timestamp format cue.start).not_isSpace h)
  · simpa using List.all_eq_true.1 hbetween c (by simp [List.mem_singleton.1 h])
  · simpa using List.all_eq_true.1 hbetween c (by simp [h])
  · simpa using List.all_eq_true.1 hbetween c (by simp [List.mem_singleton.1 h])
  · exact not_isBreak_of_not_isSpace ((solid_timestamp format cue.stop).not_isSpace h)

/-- A time range is no text. -/
theorem keptOf_range (format : Format) (cue : Cue) :
    keptOf digits (cue.range format.mark) = [] := by
  have hstart := solid_timestamp format cue.start
  have hstop := solid_timestamp format cue.stop
  refine keptOf_eq_nil (strip_eq_self (fun c hc => ?_) fun c hc => ?_)
    (fun _ => not_isBreak_of_mem_range) ?_
  · obtain ⟨d, l, hl⟩ := List.exists_cons_of_ne_nil (timestamp_ne_nil format.mark cue.start)
    obtain rfl : d = c := by simpa [Cue.range, hl] using hc
    exact hstart.not_isSpace (hl ▸ List.mem_cons_self)
  · rw [Cue.range, List.getLast?_append_of_ne_nil _ (timestamp_ne_nil format.mark cue.stop)] at hc
    exact hstop.not_isSpace (List.mem_of_mem_getLast? hc)
  · have harrow : arrow <:+: cue.range format.mark :=
      ⟨timestamp format.mark cue.start ++ [' '], [' '] ++ timestamp format.mark cue.stop, by
        simp [Cue.range]⟩
    simp [kept, harrow]

theorem keptOf_header (format : Format) : format.header.flatMap (keptOf digits) = [] := by
  cases format with
  | srt => rfl
  | vtt =>
    have hbreak : ∀ c ∈ webvtt, isBreak c = false := by
      have hall : webvtt.all (fun c => !isBreak c) = true := by decide
      exact fun c hc => by simpa using List.all_eq_true.1 hall c hc
    have hfirst : keptOf digits webvtt = [] :=
      keptOf_eq_nil (by decide) hbreak (by simp [kept])
    simp only [Format.header, List.flatMap_cons, List.flatMap_nil, List.append_nil, hfirst,
      List.nil_append]
    rfl

theorem keptOf_lines (format : Format) (cue : Cue) :
    (cue.lines format.mark).flatMap (keptOf digits) = cue.text.flatMap (keptOf digits) := by
  have hblank : keptOf digits [] = [] := rfl
  simp [Cue.lines, keptOf_ofNat, keptOf_range, hblank]

theorem not_newline_of_not_isBreak {c : Char} (h : isBreak c = false) : c ≠ '\n' ∧ c ≠ '\r' := by
  refine ⟨?_, ?_⟩ <;> rintro rfl <;> exact absurd h (by decide)

theorem line_ok_lines {format : Format} {cue : Cue} {l : Str} (h : l ∈ cue.lines format.mark) :
    ∀ c ∈ l, c ≠ '\n' ∧ c ≠ '\r' := by
  intro c hc
  simp only [Cue.lines, List.cons_append, List.mem_cons, List.mem_append, List.not_mem_nil,
    or_false] at h
  rcases h with h | h | h | h
  · rw [h] at hc
    have hspace := (solid_ofNat cue.index).not_isSpace hc
    exact not_newline_of_not_isBreak (not_isBreak_of_not_isSpace hspace)
  · rw [h] at hc
    exact not_newline_of_not_isBreak (not_isBreak_of_mem_range hc)
  · exact (cue.line_ok l h).2 c hc
  · rw [h] at hc
    exact nomatch hc

theorem line_ok_header {format : Format} {l : Str} (h : l ∈ format.header) :
    ∀ c ∈ l, c ≠ '\n' ∧ c ≠ '\r' := by
  have hall : webvtt.all (fun c => c ≠ '\n' && c ≠ '\r') = true := by decide
  intro c hc
  cases format with
  | srt => exact nomatch h
  | vtt =>
    simp only [Format.header, List.mem_cons, List.not_mem_nil, or_false] at h
    rcases h with rfl | rfl
    · simpa using List.all_eq_true.1 hall c hc
    · exact nomatch hc

theorem extractSubtitle_render (format : Format) (e : LineEnd) (cues : List Cue) :
    extractSubtitle digits (render format e cues) =
      joinSep ['\n'] ((cues.flatMap Cue.text).flatMap (keptOf digits)) := by
  have hok : ∀ l ∈ format.header ++ cues.flatMap (Cue.lines format.mark),
      ∀ c ∈ l, c ≠ '\n' ∧ c ≠ '\r' := by
    intro l hl
    rcases List.mem_append.1 hl with hl | hl
    · exact line_ok_header hl
    · obtain ⟨cue, -, hcue⟩ := List.mem_flatMap.1 hl
      exact line_ok_lines hcue
  have hcues : (cues.flatMap (Cue.lines format.mark)).flatMap (keptOf digits) =
      (cues.flatMap Cue.text).flatMap (keptOf digits) := by
    rw [List.flatMap_assoc, List.flatMap_assoc]
    exact List.flatMap_congr fun cue _ => keptOf_lines format cue
  rw [render, extractSubtitle_encode e hok, List.flatMap_append, keptOf_header, List.nil_append,
    hcues]

/-! ## Lines of text -/

/-- A line of text that does not look like structure, without a break inside. -/
def Spoken (digits : DigitChars) (l : Str) : Prop :=
  strip l ≠ webvtt ∧ ¬ (strip l).all digits.isDigit = true ∧ ¬ arrow <:+: strip l ∧
    ∀ c ∈ strip l, isBreak c = false

theorem flatMap_keptOf_eq_iff {ls : List Str} (h : ∀ l ∈ ls, strip l ≠ []) :
    ls.flatMap (keptOf digits) = ls.map strip ↔ ∀ l ∈ ls, Spoken digits l := by
  constructor
  · intro heq l hl
    have hmem : strip l ∈ ls.flatMap (keptOf digits) := by
      rw [heq]
      exact List.mem_map_of_mem hl
    obtain ⟨l', -, hl'⟩ := List.mem_flatMap.1 hmem
    obtain ⟨hpiece, hkept⟩ := List.mem_filter.1 hl'
    obtain ⟨-, hhead, hdigits, harrow⟩ := kept_iff.1 hkept
    exact ⟨hhead, hdigits, harrow, fun c => not_isBreak_of_mem_pieces hpiece⟩
  · intro hspoken
    have hone : ∀ l ∈ ls, keptOf digits l = [strip l] := by
      intro l hl
      obtain ⟨hhead, hdigits, harrow, hbreak⟩ := hspoken l hl
      have hkept : kept digits (strip l) = true := kept_iff.2 ⟨h l hl, hhead, hdigits, harrow⟩
      rw [keptOf, pieces_eq_singleton (h l hl) hbreak]
      simp [hkept]
    rw [List.flatMap_congr hone, List.map_eq_flatMap]

/-- **Subtitles keep their text** exactly if every line of it is spoken text to the eye of the
extraction. -/
theorem extractSubtitle_render_iff (digits : DigitChars) (format : Format) (e : LineEnd)
    (cues : List Cue) :
    extractSubtitle digits (render format e cues) =
        joinSep ['\n'] ((cues.flatMap Cue.text).map strip) ↔
      ∀ cue ∈ cues, ∀ l ∈ cue.text, Spoken digits l := by
  have hok : ∀ l ∈ cues.flatMap Cue.text, strip l ≠ [] ∧ ∀ c ∈ l, c ≠ '\n' ∧ c ≠ '\r' := by
    intro l hl
    obtain ⟨cue, -, hcue⟩ := List.mem_flatMap.1 hl
    exact cue.line_ok l hcue
  have hkept : ∀ p ∈ (cues.flatMap Cue.text).flatMap (keptOf digits), p ≠ [] ∧ '\n' ∉ p := by
    intro p hp
    obtain ⟨l, -, hl⟩ := List.mem_flatMap.1 hp
    obtain ⟨hpiece, hkept⟩ := List.mem_filter.1 hl
    refine ⟨(kept_iff.1 hkept).1, fun hc => ?_⟩
    exact absurd (not_isBreak_of_mem_pieces hpiece hc) (by decide)
  have hstrip : ∀ p ∈ (cues.flatMap Cue.text).map strip, p ≠ [] ∧ '\n' ∉ p := by
    intro p hp
    obtain ⟨l, hl, rfl⟩ := List.mem_map.1 hp
    exact ⟨(hok l hl).1, fun hc => ((hok l hl).2 _ (mem_of_mem_strip hc)).1 rfl⟩
  have hiff : (cues.flatMap Cue.text).flatMap (keptOf digits) =
      (cues.flatMap Cue.text).map strip ↔ ∀ l ∈ cues.flatMap Cue.text, Spoken digits l :=
    flatMap_keptOf_eq_iff fun l hl => (hok l hl).1
  rw [extractSubtitle_render, ← List.forall_mem_flatMap, ← hiff]
  exact ⟨eq_of_joinSep_eq hkept hstrip, congrArg _⟩

namespace Sample

/-- A cue whose text is a year. -/
def year : Cue where
  index := 1
  start := 1000
  stop := 2000
  text := ["1984".toList]
  index_pos := Nat.one_pos
  text_ne := by decide
  line_ok := by
    have hall : ["1984".toList].all
        (fun l => strip l ≠ [] && l.all fun c => c ≠ '\n' && c ≠ '\r') = true := by decide
    exact fun l hl => by simpa using List.all_eq_true.1 hall l hl

/-- The year is taken for a number of a cue. -/
theorem year_dropped : ∃ (digits : DigitChars) (cues : List Cue),
    extractSubtitle digits (render .srt .lf cues) ≠
      joinSep ['\n'] ((cues.flatMap Cue.text).map strip) := by
  refine ⟨⟨Char.isDigit, fun _ h => h⟩, [year], ?_⟩
  decide

end Sample

end RagLeap.Rag
