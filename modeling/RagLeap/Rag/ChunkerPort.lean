import Mathlib.Data.Int.Init
import Mathlib.Data.List.TakeWhile
import RagLeap.Core.Chunker
import RagLeap.Foundations.Windows
import RagLeap.Foundations.Words

/-!
# The chunker and its port

`chunker.py` of `ragleap-rag` and `TextChunker.java`. Both cut the words of a text into windows, and
over the same words with the same sizes they cut alike. They differ in three ways: Python takes a
size or an overlap of zero for the default, the two languages count different characters as white
space, and the port computes with 32-bit numbers. `chunkText_agrees` says for which texts and sizes
none of these matters.
-/

namespace RagLeap.Rag

namespace ChunkerPort

/-- A chunk; `isExact` says whether the tokens were counted or estimated. -/
structure Chunk where
  text : Str
  chunkIndex : ℕ
  tokenCount : ℕ
  isExact : Bool

def DEFAULT_CHUNK_SIZE : ℤ := 512

def DEFAULT_CHUNK_OVERLAP : ℤ := 50

/-- `" ".join(tokens)`. -/
def join (tokens : List Str) : Str := [' '].intercalate tokens

/-! ## The chunker -/

namespace Python

structure TextChunker where
  chunkSize : ℤ
  chunkOverlap : ℤ
  overlap_lt : chunkOverlap < chunkSize

/-- `value or default`. -/
def orDefault (value default : ℤ) : ℤ := if value = 0 then default else value

/-- `TextChunker(chunk_size, chunk_overlap)`; none is the `ValueError`. -/
def new (chunkSize chunkOverlap : ℤ) : Option TextChunker :=
  if h : orDefault chunkOverlap DEFAULT_CHUNK_OVERLAP < orDefault chunkSize DEFAULT_CHUNK_SIZE then
    some ⟨_, _, h⟩
  else none

/-- The place in a list of length `n` that an index of a slice stands for. -/
def place (n : ℕ) (i : ℤ) : ℕ := if i < 0 then (i + n).toNat else min i.toNat n

/-- `tokens[start:stop]`. -/
def slice (tokens : List Str) (start stop : ℤ) : List Str :=
  (tokens.take (place tokens.length stop)).drop (place tokens.length start)

/-- The loop of `chunk_text`, over the starts that are left. -/
def collect (count : Str → ℕ × Bool) (chunkSize : ℤ) (tokens : List Str) :
    List ℕ → ℕ → List Chunk
  | [], _ => []
  | start :: starts, chunkIndex =>
    let stop := min (start + chunkSize) tokens.length
    let content := join (slice tokens start stop)
    ⟨content, chunkIndex, (count content).1, (count content).2⟩ ::
      if stop = tokens.length then [] else collect count chunkSize tokens starts (chunkIndex + 1)

/-- `chunk_text`; `count` is `_real_token_count`. -/
def chunkText (count : Str → ℕ × Bool) (c : TextChunker) (text : Str) : List Chunk :=
  if text.strip = [] then []
  else
    let tokens := text.words
    if tokens.length = 0 then []
    else
      collect count c.chunkSize tokens
        (rangeStep tokens.length (c.chunkSize - c.chunkOverlap).toNat) 0

end Python

/-! ## The port -/

namespace Java

/-- The range of `int`. -/
def IsInt (n : ℤ) : Prop := -2 ^ 31 ≤ n ∧ n < 2 ^ 31

/-- A result of arithmetic as an `int`. -/
def int (n : ℤ) : ℤ := n.bmod (2 ^ 32)

structure TextChunker where
  chunkSize : ℤ
  chunkOverlap : ℤ
  overlap_lt : chunkOverlap < chunkSize

/-- `new TextChunker(chunkSize, chunkOverlap)`; none is the `IllegalArgumentException`. -/
def new (chunkSize chunkOverlap : ℤ) : Option TextChunker :=
  if h : chunkOverlap < chunkSize then some ⟨chunkSize, chunkOverlap, h⟩ else none

/-- `\\s` of a pattern. -/
def isSplit (c : Char) : Bool := (9 ≤ c.toNat && c.toNat ≤ 13) || c.toNat = 32

/-- What `String.trim` takes off the ends. -/
def isTrimmed (c : Char) : Bool := c.toNat ≤ 32

/-- `Character.isWhitespace`, which leaves out the spaces that do not break. -/
def isWhitespace (c : Char) : Bool :=
  let n := c.toNat
  (9 ≤ n && n ≤ 13) || (28 ≤ n && n ≤ 32) || n == 0x1680 || (0x2000 ≤ n && n ≤ 0x2006) ||
    (0x2008 ≤ n && n ≤ 0x200a) || n == 0x2028 || n == 0x2029 || n == 0x205f || n == 0x3000

/-- A text without such characters at its ends. -/
def stripBy (p : Char → Bool) (text : Str) : Str :=
  ((text.dropWhile p).reverse.dropWhile p).reverse

/-- `tokenize`: `text.trim().split("\\s+")` without its empty parts. -/
def tokenize (text : Str) : List Str := wordsOf isSplit (stripBy isTrimmed text)

/-- `tokens.subList(start, stop)`; none is an exception. -/
def subList (tokens : List Str) (start stop : ℤ) : Option (List Str) :=
  if start < 0 ∨ tokens.length < stop ∨ stop < start then none
  else some ((tokens.take stop.toNat).drop start.toNat)

inductive Stop
  | raised
  | outOfFuel

/-- The loop of `chunkText`. -/
def loop (count : Str → ℕ × Bool) (chunkSize step : ℤ) (tokens : List Str) :
    ℕ → ℤ → ℕ → Except Stop (List Chunk)
  | 0, _, _ => .error .outOfFuel
  | fuel + 1, start, chunkIndex =>
    if start < tokens.length then
      let stop := min (int (start + chunkSize)) tokens.length
      match subList tokens start stop with
      | none => .error .raised
      | some part =>
        let content := join part
        let chunk : Chunk := ⟨content, chunkIndex, (count content).1, (count content).2⟩
        if stop = tokens.length then .ok [chunk]
        else
          (loop count chunkSize step tokens fuel (int (start + step)) (chunkIndex + 1)).map
            (chunk :: ·)
    else .ok []

/-- `chunkText`; `count` is `realTokenCount`. Each step leads further or raises, so there are no
more than the tokens and one (`java_ne_outOfFuel`). -/
def chunkText (count : Str → ℕ × Bool) (c : TextChunker) (text : Str) : Except Stop (List Chunk) :=
  if stripBy isWhitespace text = [] then .ok []
  else
    let tokens := tokenize text
    if tokens = [] then .ok []
    else loop count c.chunkSize (int (c.chunkSize - c.chunkOverlap)) tokens (tokens.length + 1) 0 0

end Java

/-! ## The words of both languages -/

/-- The tokens that the port cuts. -/
def javaTokens (text : Str) : List Str :=
  if Java.stripBy Java.isWhitespace text = [] then [] else Java.tokenize text

/-- What `trim` takes off. -/
def trimmedOff (text : Str) : Str :=
  text.takeWhile Java.isTrimmed ++
    ((text.dropWhile Java.isTrimmed).reverse.takeWhile Java.isTrimmed).reverse

/-- Both languages find the same words: the text has only the port's white space, or what is trimmed
off is white space, and white space in the rest splits words of the port too. -/
def SameWords (text : Str) : Prop :=
  (∀ c ∈ text, Java.isWhitespace c = true) ∨
    (∀ c ∈ Java.stripBy Java.isTrimmed text, Str.isSpace c = true → Java.isSplit c = true) ∧
      ∀ c ∈ trimmedOff text, Str.isSpace c = true

section Words

variable {text : Str}

theorem isSpace_of_isSplit {c : Char} (h : Java.isSplit c = true) : Str.isSpace c = true := by
  simp only [Java.isSplit, Str.isSpace, Bool.or_eq_true, Bool.and_eq_true, decide_eq_true_eq,
    beq_iff_eq] at h ⊢
  omega

theorem isSpace_of_isWhitespace {c : Char} (h : Java.isWhitespace c = true) :
    Str.isSpace c = true := by
  simp only [Java.isWhitespace, Str.isSpace, Bool.or_eq_true, Bool.and_eq_true, decide_eq_true_eq,
    beq_iff_eq] at h ⊢
  omega

theorem takeWhile_append_stripBy (p : Char → Bool) (text : Str) :
    text = text.takeWhile p ++ (Java.stripBy p text ++
      ((text.dropWhile p).reverse.takeWhile p).reverse) := by
  rw [Java.stripBy, ← List.reverse_append, List.takeWhile_append_dropWhile, List.reverse_reverse,
    List.takeWhile_append_dropWhile]

theorem mem_takeWhile {p : Char → Bool} {c : Char} (h : c ∈ text.takeWhile p) : p c = true :=
  List.all_eq_true.1 List.all_takeWhile c h

theorem stripBy_eq_nil_iff {p : Char → Bool} :
    Java.stripBy p text = [] ↔ ∀ c ∈ text, p c = true := by
  constructor
  · intro h c hc
    rw [takeWhile_append_stripBy p text, h, List.nil_append, List.mem_append,
      List.mem_reverse] at hc
    exact hc.elim mem_takeWhile mem_takeWhile
  · intro h
    rw [Java.stripBy, List.dropWhile_eq_nil_iff.2 h]
    rfl

theorem words_eq (text : Str) : text.words = wordsOf Str.isSpace text := rfl

/-- **The words are the same** just for these texts. -/
theorem sameWords_iff : SameWords text ↔ javaTokens text = text.words := by
  have hsplit := takeWhile_append_stripBy Java.isTrimmed text
  constructor
  · rintro (hall | ⟨hbody, hends⟩)
    · rw [javaTokens, if_pos (stripBy_eq_nil_iff.2 hall), words_eq]
      exact (wordsOf_eq_nil_iff.2 fun c hc => isSpace_of_isWhitespace (hall c hc)).symm
    · have htokens : Java.tokenize text = text.words := by
        have hcongr : Java.tokenize text = wordsOf Str.isSpace (Java.stripBy Java.isTrimmed text) :=
          wordsOf_congr fun c hc => Bool.eq_iff_iff.2 ⟨isSpace_of_isSplit, hbody c hc⟩
        rw [hcongr, words_eq]
        conv_rhs => rw [hsplit]
        rw [wordsOf_leading fun c hc => hends c (List.mem_append_left _ hc),
          wordsOf_suffix fun c hc => hends c (List.mem_append_right _ hc)]
      rw [javaTokens]
      split
      · rename_i hnil
        exact (wordsOf_eq_nil_iff.2 fun c hc =>
          isSpace_of_isWhitespace (stripBy_eq_nil_iff.1 hnil c hc)).symm
      · exact htokens
  · intro h
    rw [javaTokens] at h
    split at h
    · rename_i hnil
      exact .inl (stripBy_eq_nil_iff.1 hnil)
    · -- Both sides hold the characters that do not separate, of the trimmed text and of the text.
      have hflat := congrArg List.flatten h
      rw [Java.tokenize, words_eq, flatten_wordsOf, flatten_wordsOf] at hflat
      have hbody : ∀ c ∈ Java.stripBy Java.isTrimmed text, Str.isSpace c = true →
          Java.isSplit c = true := by
        intro c hc hspace
        by_contra hnot
        have hmem : c ∈ text.filter fun c => !Str.isSpace c := by
          rw [← hflat]
          exact List.mem_filter.2 ⟨hc, by simpa using hnot⟩
        have hfree := (List.mem_filter.1 hmem).2
        rw [hspace] at hfree
        exact nomatch hfree
      have hsame : (Java.stripBy Java.isTrimmed text).filter (fun c => !Java.isSplit c) =
          (Java.stripBy Java.isTrimmed text).filter fun c => !Str.isSpace c := by
        refine List.filter_congr fun c hc => ?_
        rw [Bool.eq_iff_iff.2 ⟨isSpace_of_isSplit, hbody c hc⟩]
      have hlen := congrArg List.length hflat
      rw [hsame] at hlen
      conv_rhs at hlen => rw [hsplit]
      rw [List.filter_append, List.filter_append, List.length_append, List.length_append] at hlen
      have hfront : (text.takeWhile Java.isTrimmed).filter (fun c => !Str.isSpace c) = [] :=
        List.length_eq_zero_iff.1 (by omega)
      have hback :
          (((text.dropWhile Java.isTrimmed).reverse.takeWhile Java.isTrimmed).reverse).filter
            (fun c => !Str.isSpace c) = [] := List.length_eq_zero_iff.1 (by omega)
      refine .inr ⟨hbody, fun c hc => ?_⟩
      rcases List.mem_append.1 hc with hc | hc
      · simpa using List.filter_eq_nil_iff.1 hfront c hc
      · simpa using List.filter_eq_nil_iff.1 hback c hc

end Words

/-! ## The windows of both -/

section Windows

variable {count : Str → ℕ × Bool} {tokens : List Str}

/-- The starts count up to the end. -/
theorem rangeStep_eq (stop step : ℕ) :
    rangeStep stop step = List.range' 0 ((stop + step - 1) / step) step := by
  refine List.ext_getElem (by simp [rangeStep]) fun i h h' => ?_
  simp [rangeStep, Nat.mul_comm]

theorem ceil_of_lt {n start step : ℕ} (hstep : 0 < step) (hlt : start < n) :
    (n - start + step - 1) / step = (n - (start + step) + step - 1) / step + 1 := by
  have hone : n - start + step - 1 = n - start - 1 + step := by omega
  rw [hone, Nat.add_div_right _ hstep]
  congr 1
  rcases Nat.lt_or_ge (start + step) n with h | h
  · congr 1
    omega
  · have hlast : n - (start + step) + step - 1 = step - 1 := by omega
    rw [hlast, Nat.div_eq_of_lt (by omega), Nat.div_eq_of_lt (by omega)]

/-- The part of the tokens from a start to a stop is the window there. -/
theorem take_drop_eq {start size : ℕ} :
    (tokens.take (min (start + size) tokens.length)).drop start =
      (tokens.drop start).take size := by
  rw [List.drop_take]
  rcases Nat.le_total (start + size) tokens.length with h | h
  · rw [Nat.min_eq_left h, Nat.add_sub_cancel_left]
  · rw [Nat.min_eq_right h, List.take_of_length_le (by rw [List.length_drop]),
      List.take_of_length_le (by rw [List.length_drop]; omega)]

theorem slice_eq {start size : ℕ} (hsize : 0 < size) (hlt : start < tokens.length) :
    Python.slice tokens start (min ((start : ℤ) + size) tokens.length) =
      (tokens.drop start).take size := by
  have hstop : Python.place tokens.length (min ((start : ℤ) + size) tokens.length) =
      min (start + size) tokens.length := by
    unfold Python.place
    rw [if_neg (by omega)]
    omega
  have hstart : Python.place tokens.length start = start := by
    unfold Python.place
    rw [if_neg (by omega)]
    omega
  rw [Python.slice, hstop, hstart, take_drop_eq]

/-- The loop of the chunker cuts windows. -/
theorem collect_texts {size step : ℕ} (hsize : 0 < size) (hstep : 0 < step) (start index : ℕ) :
    (Python.collect count size tokens
      (List.range' start ((tokens.length - start + step - 1) / step) step) index).map Chunk.text =
      (windows size step hstep (tokens.drop start)).map join := by
  induction hn : tokens.length - start using Nat.strong_induction_on generalizing start index with
  | _ n ih =>
    rcases Nat.lt_or_ge start tokens.length with hlt | hge
    · rw [← hn, ceil_of_lt hstep hlt, List.range'_succ, Python.collect, slice_eq hsize hlt,
        List.map_cons]
      have hne : tokens.drop start ≠ [] := by
        rw [ne_eq, List.drop_eq_nil_iff]
        omega
      rcases Nat.lt_or_ge size (tokens.drop start).length with hlong | hshort
      · have hlong' := hlong
        rw [List.length_drop] at hlong'
        rw [windows_of_lt hlong, List.map_cons, if_neg (by omega), List.drop_drop,
          ih (tokens.length - (start + step)) (by omega) (start + step) (index + 1) rfl]
      · have hshort' := hshort
        rw [List.length_drop] at hshort'
        rw [windows_of_le hne hshort, if_pos (by omega), List.take_of_length_le hshort]
        rfl
    · have hzero : (n + step - 1) / step = 0 := Nat.div_eq_of_lt (by omega)
      rw [hzero, List.drop_eq_nil_of_le hge, windows_nil]
      rfl

/-- What the chunker returns. -/
theorem python_texts {c : Python.TextChunker} {size step : ℕ} (hstep : 0 < step) (hsize : 0 < size)
    (hc : c.chunkSize = size) (hc' : c.chunkSize - c.chunkOverlap = step) (text : Str) :
    (Python.chunkText count c text).map Chunk.text =
      (windows size step hstep text.words).map join := by
  unfold Python.chunkText
  dsimp only
  have hnil : text.words = [] → ([] : List Chunk).map Chunk.text =
      (windows size step hstep text.words).map join := fun h => by rw [h, windows_nil]; rfl
  split
  · rename_i hstrip
    refine hnil (wordsOf_eq_nil_iff.2 ?_)
    exact stripBy_eq_nil_iff.1 hstrip
  split
  · rename_i hlen
    exact hnil (List.length_eq_zero_iff.1 hlen)
  · rw [hc', hc, Int.toNat_natCast, rangeStep_eq]
    exact collect_texts hsize hstep 0 0

theorem int_of_isInt {n : ℤ} (h : Java.IsInt n) : Java.int n = n := by
  obtain ⟨hge, hlt⟩ := h
  unfold Java.int
  exact Int.bmod_eq_of_le (by omega) (by omega)

/-- A step of the loop that cuts a part. -/
theorem loop_of_some {chunkSize step start stop : ℤ} {fuel index : ℕ} {part : List Str}
    (hlt : start < tokens.length)
    (hstop : min (Java.int (start + chunkSize)) (tokens.length : ℤ) = stop)
    (hpart : Java.subList tokens start stop = some part) :
    Java.loop count chunkSize step tokens (fuel + 1) start index =
      if stop = tokens.length then .ok [⟨join part, index, (count (join part)).1,
        (count (join part)).2⟩]
      else (Java.loop count chunkSize step tokens fuel (Java.int (start + step)) (index + 1)).map
        (⟨join part, index, (count (join part)).1, (count (join part)).2⟩ :: ·) := by
  subst hstop
  rw [Java.loop, if_pos hlt]
  simp only [hpart]

/-- A step of the loop that raises. -/
theorem loop_of_none {chunkSize step start stop : ℤ} {fuel index : ℕ}
    (hlt : start < tokens.length)
    (hstop : min (Java.int (start + chunkSize)) (tokens.length : ℤ) = stop)
    (hpart : Java.subList tokens start stop = none) :
    Java.loop count chunkSize step tokens (fuel + 1) start index = .error .raised := by
  subst hstop
  rw [Java.loop, if_pos hlt]
  simp only [hpart]

/-- The loop of the port cuts windows too, as long as nothing overflows. -/
theorem loop_texts {size step : ℕ} (hsize : 0 < size) (hstep : 0 < step) (hsize' : size < 2 ^ 31)
    (hstep' : step < 2 ^ 31) (hn : tokens.length ≤ 2 ^ 30) (fuel start index : ℕ)
    (hfuel : tokens.length - start < fuel)
    (hstart : start = 0 ∨ size < tokens.length ∧ step ≤ start) :
    ∃ chunks, Java.loop count size step tokens fuel start index = .ok chunks ∧
      chunks.map Chunk.text = (windows size step hstep (tokens.drop start)).map join := by
  induction fuel generalizing start index with
  | zero => exact absurd hfuel (Nat.not_lt_zero _)
  | succ fuel ih =>
    rcases Nat.lt_or_ge start tokens.length with hlt | hge
    · have hsum : Java.int (start + size) = start + size :=
        int_of_isInt ⟨by omega, by omega⟩
      have hnext : Java.int (start + step) = (start + step : ℕ) := by
        rw [int_of_isInt ⟨by omega, by omega⟩, Int.natCast_add]
      have hpart : Java.subList tokens start (min ((start : ℤ) + size) tokens.length) =
          some ((tokens.drop start).take size) := by
        have hstop : (min ((start : ℤ) + size) tokens.length).toNat =
            min (start + size) tokens.length := by omega
        rw [Java.subList, if_neg (by omega), hstop, Int.toNat_natCast, take_drop_eq]
      have hne : tokens.drop start ≠ [] := by
        rw [ne_eq, List.drop_eq_nil_iff]
        omega
      rw [loop_of_some (by omega) (by rw [hsum]) hpart, hnext]
      rcases Nat.lt_or_ge size (tokens.drop start).length with hlong | hshort
      · have hlong' := hlong
        rw [List.length_drop] at hlong'
        obtain ⟨chunks, hchunks, htexts⟩ := ih (start + step) (index + 1) (by omega)
          (.inr ⟨by omega, by omega⟩)
        refine ⟨_, by rw [if_neg (by omega), hchunks, Except.map], ?_⟩
        rw [windows_of_lt hlong, List.map_cons, List.map_cons, htexts, List.drop_drop]
      · have hshort' := hshort
        rw [List.length_drop] at hshort'
        refine ⟨_, by rw [if_pos (by omega)], ?_⟩
        rw [windows_of_le hne hshort, List.take_of_length_le hshort]
        rfl
    · refine ⟨[], by rw [Java.loop, if_neg (by omega)], ?_⟩
      rw [List.drop_eq_nil_of_le hge, windows_nil]
      rfl

end Windows

/-! ## The port step by step -/

section Port

variable {count : Str → ℕ × Bool} {c : Java.TextChunker} {text : Str}

theorem java_eq (count : Str → ℕ × Bool) (c : Java.TextChunker) (text : Str) :
    Java.chunkText count c text = if javaTokens text = [] then .ok []
      else Java.loop count c.chunkSize (Java.int (c.chunkSize - c.chunkOverlap)) (javaTokens text)
        ((javaTokens text).length + 1) 0 0 := by
  unfold Java.chunkText javaTokens
  dsimp only
  split
  · rw [if_pos rfl]
  · rfl

theorem java_of_nil (h : javaTokens text = []) : Java.chunkText count c text = .ok [] := by
  rw [java_eq, if_pos h]

theorem length_javaTokens (hlen : text.length < 2 ^ 31) : (javaTokens text).length ≤ 2 ^ 30 := by
  unfold javaTokens
  split
  · exact Nat.zero_le _
  · have hwords := length_wordsOf_le (p := Java.isSplit) (Java.stripBy Java.isTrimmed text)
    have hsub := congrArg List.length (takeWhile_append_stripBy Java.isTrimmed text)
    rw [List.length_append, List.length_append] at hsub
    rw [Java.tokenize]
    omega

/-- All tokens fit into one window. -/
theorem java_of_le (hsize : Java.IsInt c.chunkSize) (hne : javaTokens text ≠ [])
    (hle : (javaTokens text).length ≤ c.chunkSize) :
    ∃ chunks, Java.chunkText count c text = .ok chunks ∧
      chunks.map Chunk.text = [join (javaTokens text)] := by
  have hpos := List.length_pos_of_ne_nil hne
  have hpart : Java.subList (javaTokens text) 0 (javaTokens text).length =
      some (javaTokens text) := by
    rw [Java.subList, if_neg (by omega), Int.toNat_natCast, List.take_length]
    rfl
  have hstop : min (Java.int (0 + c.chunkSize)) ((javaTokens text).length : ℤ) =
      (javaTokens text).length := by
    rw [Int.zero_add, int_of_isInt hsize]
    omega
  rw [java_eq, if_neg hne, loop_of_some (by omega) hstop hpart, if_pos rfl]
  exact ⟨_, rfl, rfl⟩

/-- The windows of the port. -/
theorem java_texts {size step : ℕ} (hlen : text.length < 2 ^ 31) (hsize : 0 < size)
    (hstep : 0 < step) (hsize' : size < 2 ^ 31) (hstep' : step < 2 ^ 31)
    (hc : c.chunkSize = size) (hc' : c.chunkSize - c.chunkOverlap = step) :
    ∃ chunks, Java.chunkText count c text = .ok chunks ∧
      chunks.map Chunk.text = (windows size step hstep (javaTokens text)).map join := by
  rw [java_eq]
  split
  · rename_i hnil
    exact ⟨[], rfl, by rw [hnil, windows_nil]; rfl⟩
  · rw [hc', hc, int_of_isInt ⟨by omega, by omega⟩]
    exact loop_texts hsize hstep hsize' hstep' (length_javaTokens hlen) _ 0 0 (by omega) (.inl rfl)

/-- The overlap is so far below zero that the step overflows, and the second part starts before the
tokens. -/
theorem java_of_overflow (hsize : Java.IsInt c.chunkSize) (hoverlap : Java.IsInt c.chunkOverlap)
    (hpos : 0 < c.chunkSize) (hlong : c.chunkSize < (javaTokens text).length)
    (hstep : 2 ^ 31 ≤ c.chunkSize - c.chunkOverlap) :
    Java.chunkText count c text = .error .raised := by
  obtain ⟨hs, hs'⟩ := hsize
  obtain ⟨ho, ho'⟩ := hoverlap
  have hne : javaTokens text ≠ [] := by
    rintro hnil
    rw [hnil] at hlong
    exact absurd hlong (by simpa using hpos.le)
  have hwrap : Java.int (c.chunkSize - c.chunkOverlap) =
      c.chunkSize - c.chunkOverlap - 2 ^ 32 := by
    unfold Java.int
    rw [Int.bmod_def]
    omega
  have hstop : min (Java.int (0 + c.chunkSize)) ((javaTokens text).length : ℤ) = c.chunkSize := by
    rw [Int.zero_add, int_of_isInt ⟨hs, hs'⟩]
    omega
  have hpart : Java.subList (javaTokens text) 0 c.chunkSize =
      some ((javaTokens text).take c.chunkSize.toNat) := by
    rw [Java.subList, if_neg (by omega)]
    rfl
  obtain ⟨n, hn⟩ : ∃ n, (javaTokens text).length = n + 1 :=
    Nat.exists_eq_succ_of_ne_zero (List.length_pos_of_ne_nil hne).ne'
  have hsecond : ∀ index, Java.loop count c.chunkSize (Java.int (c.chunkSize - c.chunkOverlap))
      (javaTokens text) (n + 1) (Java.int (0 + Java.int (c.chunkSize - c.chunkOverlap))) index =
      .error .raised := by
    intro index
    rw [hwrap, Int.zero_add, int_of_isInt ⟨by omega, by omega⟩]
    refine loop_of_none (by omega) rfl ?_
    rw [Java.subList, if_pos (.inl (by omega))]
  rw [java_eq, if_neg hne, loop_of_some (by omega) hstop hpart, if_neg (by omega), hn, hsecond]
  rfl

theorem of_map_eq_error {α β ε : Type} {f : α → β} {x : Except ε α} {e : ε}
    (h : x.map f = .error e) : x = .error e := by
  cases x with
  | error e' => exact congrArg _ (Except.error.inj h)
  | ok a => exact nomatch h

theorem loop_ne_outOfFuel {size step : ℤ} {tokens : List Str} (hn : tokens.length ≤ 2 ^ 30)
    (hstep : Java.IsInt step) (hne : step ≠ 0) (fuel : ℕ) (start : ℤ) (index : ℕ)
    (hfuel : 0 < fuel ∧ tokens.length < start + fuel ∨ 0 < fuel ∧ start < 0)
    (hstart : start ≤ 0 ∨ 0 < step) :
    Java.loop count size step tokens fuel start index ≠ .error .outOfFuel := by
  obtain ⟨hstep, hstep'⟩ := hstep
  induction fuel generalizing start index with
  | zero => omega
  | succ fuel ih =>
    rcases lt_or_ge start tokens.length with hlt | hge
    · cases hpart : Java.subList tokens start (min (Java.int (start + size)) tokens.length) with
      | none =>
        rw [loop_of_none hlt rfl hpart]
        exact nofun
      | some part =>
        have hnonneg : 0 ≤ start := by
          by_contra hneg
          rw [Java.subList, if_pos (.inl (by omega))] at hpart
          exact nomatch hpart
        -- The next start is further on, or below zero, where no part starts.
        have hnext : Java.int (start + step) = start + step ∧ start + step < 2 ^ 31 ∨
            Java.int (start + step) < 0 := by
          rcases lt_or_ge (start + step) (2 ^ 31) with h | h
          · exact .inl ⟨int_of_isInt ⟨by omega, h⟩, h⟩
          · right
            unfold Java.int
            rw [Int.bmod_def]
            omega
        have hrest := ih (Java.int (start + step)) (index + 1) (by omega) (by omega)
        rw [loop_of_some hlt rfl hpart]
        split
        · exact nofun
        · intro h
          exact hrest (of_map_eq_error h)
    · rw [Java.loop, if_neg (by omega)]
      exact nofun

/-- The port returns or raises. -/
theorem java_ne_outOfFuel (hlen : text.length < 2 ^ 31) (hsize : Java.IsInt c.chunkSize)
    (hoverlap : Java.IsInt c.chunkOverlap) :
    Java.chunkText count c text ≠ .error .outOfFuel := by
  obtain ⟨hs, hs'⟩ := hsize
  obtain ⟨ho, ho'⟩ := hoverlap
  have hlt := c.overlap_lt
  rw [java_eq]
  split
  · exact nofun
  · have hstep : Java.int (c.chunkSize - c.chunkOverlap) = c.chunkSize - c.chunkOverlap ∧
        c.chunkSize - c.chunkOverlap < 2 ^ 31 ∨ Java.int (c.chunkSize - c.chunkOverlap) =
        c.chunkSize - c.chunkOverlap - 2 ^ 32 ∧ 2 ^ 31 ≤ c.chunkSize - c.chunkOverlap := by
      rcases lt_or_ge (c.chunkSize - c.chunkOverlap) (2 ^ 31) with h | h
      · exact .inl ⟨int_of_isInt ⟨by omega, h⟩, h⟩
      · refine .inr ⟨?_, h⟩
        unfold Java.int
        rw [Int.bmod_def]
        omega
    exact loop_ne_outOfFuel (length_javaTokens hlen) ⟨by omega, by omega⟩ (by omega) _ 0 0
      (.inl ⟨Nat.succ_pos _, by omega⟩) (.inl (le_refl 0))

/-- A size below zero raises at once. -/
theorem java_of_neg (hsize : Java.IsInt c.chunkSize) (hneg : c.chunkSize < 0)
    (hne : javaTokens text ≠ []) : Java.chunkText count c text = .error .raised := by
  have hpos := List.length_pos_of_ne_nil hne
  rw [java_eq, if_neg hne]
  refine loop_of_none (by omega) rfl ?_
  rw [Int.zero_add, int_of_isInt hsize, Java.subList, if_pos (.inr (.inr (by omega)))]

theorem exists_of_map_eq_ok {α β ε : Type} {f : α → β} {x : Except ε α} {b : β}
    (h : x.map f = .ok b) : ∃ a, f a = b := by
  cases x with
  | error e => exact nomatch h
  | ok a => exact ⟨a, Except.ok.inj h⟩

/-- With a size of zero the first chunk is empty. -/
theorem java_of_zero (hzero : c.chunkSize = 0) (hne : javaTokens text ≠ []) {chunks : List Chunk}
    (h : Java.chunkText count c text = .ok chunks) : [] ∈ chunks.map Chunk.text := by
  have hpos := List.length_pos_of_ne_nil hne
  have hstop : min (Java.int (0 + c.chunkSize)) ((javaTokens text).length : ℤ) = 0 := by
    rw [hzero, Int.zero_add, int_of_isInt ⟨by decide, by decide⟩]
    omega
  have hpart : Java.subList (javaTokens text) 0 0 = some [] := by
    rw [Java.subList, if_neg (by omega)]
    rfl
  rw [java_eq, if_neg hne, loop_of_some (by omega) hstop hpart, if_neg (by omega)] at h
  obtain ⟨rest, rfl⟩ := exists_of_map_eq_ok h
  exact List.mem_cons_self

end Port

/-! ## Where they agree -/

/-- The port returns chunks with the texts of the chunker's, in their order. -/
def Agree (count count' : Str → ℕ × Bool) (py : Python.TextChunker) (java : Java.TextChunker)
    (text : Str) : Prop :=
  ∃ chunks, Java.chunkText count' java text = .ok chunks ∧
    chunks.map Chunk.text = (Python.chunkText count py text).map Chunk.text

/-- The words are the same, and there are none, or the size is above zero and the words fit into it,
or neither the default of the overlap nor the range of `int` matters. -/
def Fits (chunkSize chunkOverlap : ℤ) (text : Str) : Prop :=
  SameWords text ∧ (text.words = [] ∨
    0 < chunkSize ∧ (text.words.length ≤ chunkSize ∨
      chunkOverlap ≠ 0 ∧ chunkSize - chunkOverlap < 2 ^ 31))

section Agree

variable {count count' : Str → ℕ × Bool} {py : Python.TextChunker} {java : Java.TextChunker}
  {text : Str} {chunkSize chunkOverlap : ℤ}

theorem python_of_nil (h : text.words = []) : Python.chunkText count py text = [] := by
  unfold Python.chunkText
  dsimp only
  split
  · rfl
  · rw [if_pos (by rw [h]; rfl)]

theorem python_ne_nil (h : text.words ≠ []) : Python.chunkText count py text ≠ [] := by
  have hpos := List.length_pos_of_ne_nil h
  have hlt := py.overlap_lt
  unfold Python.chunkText
  dsimp only
  rw [if_neg, if_neg hpos.ne', rangeStep_eq]
  · have hceil : 0 < (text.words.length + (py.chunkSize - py.chunkOverlap).toNat - 1) /
        (py.chunkSize - py.chunkOverlap).toNat :=
      Nat.div_pos (by omega) (by omega)
    obtain ⟨k, hk⟩ := Nat.exists_eq_succ_of_ne_zero hceil.ne'
    rw [hk, List.range'_succ, Python.collect]
    exact List.cons_ne_nil _ _
  · intro hstrip
    exact h (wordsOf_eq_nil_iff.2 (stripBy_eq_nil_iff.1 hstrip))

/-- The sizes of the two, for the same numbers. -/
theorem sizes_of_new (hpy : Python.new chunkSize chunkOverlap = some py)
    (hjava : Java.new chunkSize chunkOverlap = some java) :
    (py.chunkSize = if chunkSize = 0 then 512 else chunkSize) ∧
    (py.chunkOverlap = if chunkOverlap = 0 then 50 else chunkOverlap) ∧
    java.chunkSize = chunkSize ∧ java.chunkOverlap = chunkOverlap := by
  unfold Python.new at hpy
  unfold Java.new at hjava
  split at hpy
  · split at hjava
    · obtain rfl := Option.some.inj hpy
      obtain rfl := Option.some.inj hjava
      exact ⟨rfl, rfl, rfl, rfl⟩
    · exact nomatch hjava
  · exact nomatch hpy

/-- A text of tokens without blanks says what they are. -/
theorem map_join_injective {ws ws' : List (List Str)}
    (h : ∀ w ∈ ws, w ≠ [] ∧ ∀ t ∈ w, ' ' ∉ t) (h' : ∀ w ∈ ws', w ≠ [] ∧ ∀ t ∈ w, ' ' ∉ t)
    (heq : ws.map join = ws'.map join) : ws = ws' := by
  have hsplit : ∀ l : List (List Str), (∀ w ∈ l, w ≠ [] ∧ ∀ t ∈ w, ' ' ∉ t) →
      (l.map join).map (List.splitOn ' ') = l := by
    intro l hl
    rw [List.map_map]
    refine (List.map_congr_left fun w hw => ?_).trans (List.map_id l)
    exact List.splitOn_intercalate ' ' (hl w hw).2 (hl w hw).1
  rw [← hsplit ws h, heq, hsplit ws' h']

theorem blank_notMem_of_mem_words {t : Str} (h : t ∈ text.words) : ' ' ∉ t := fun hmem =>
  absurd (not_of_mem_wordsOf h hmem) (by decide)

theorem blank_notMem_of_mem_javaTokens {t : Str} (h : t ∈ javaTokens text) : ' ' ∉ t := by
  intro hmem
  unfold javaTokens at h
  split at h
  · exact nomatch h
  · exact absurd (not_of_mem_wordsOf h hmem) (by decide)

/-- Windows whose texts agree are the same. -/
theorem windows_eq_of_texts {size size' step step' : ℕ} {hstep : 0 < step} {hstep' : 0 < step'}
    (hsize : 0 < size) (hsize' : 0 < size')
    (h : (windows size step hstep (javaTokens text)).map join =
      (windows size' step' hstep' text.words).map join) :
    windows size step hstep (javaTokens text) = windows size' step' hstep' text.words := by
  refine map_join_injective (fun w hw => ?_) (fun w hw => ?_) h
  · obtain ⟨hne, hsub⟩ := subset_of_mem_windows hsize hw
    exact ⟨hne, fun t ht => blank_notMem_of_mem_javaTokens (hsub ht)⟩
  · obtain ⟨hne, hsub⟩ := subset_of_mem_windows hsize' hw
    exact ⟨hne, fun t ht => blank_notMem_of_mem_words (hsub ht)⟩

/-- Windows of the port without overlap are the chunker's only where there is one. -/
theorem length_words_le {size step : ℕ} {hsize : 0 < size} {hstep : 0 < step} (hlt : step < size)
    (h : windows size size hsize (javaTokens text) = windows size step hstep text.words) :
    text.words.length ≤ size := by
  by_contra hlong
  have hweight : ∀ t ∈ text.words, 0 < t.length := fun t ht =>
    List.length_pos_of_ne_nil (ne_nil_of_mem_wordsOf ht)
  have hmore := sum_lt_windows List.length hweight hstep hlt (Nat.lt_of_not_le hlong)
  have hjava : (windows size step hstep text.words).flatten = javaTokens text := by
    rw [← h, flatten_windows_self]
  rw [hjava, ← List.length_flatten, ← List.length_flatten] at hmore
  -- The port's tokens are words of the chunker, so they hold no white space.
  have hmem : ∀ t ∈ javaTokens text, t ∈ text.words := by
    intro t ht
    rw [← hjava] at ht
    obtain ⟨w, hw, htw⟩ := List.mem_flatten.1 ht
    exact (subset_of_mem_windows hsize hw).2 htw
  have hfree : ∀ c ∈ (javaTokens text).flatten, Str.isSpace c = false := by
    intro c hc
    obtain ⟨t, ht, hct⟩ := List.mem_flatten.1 hc
    exact not_of_mem_wordsOf (hmem t ht) hct
  have hless : (javaTokens text).flatten.length ≤ text.words.flatten.length := by
    have hfilter : (javaTokens text).flatten.filter (fun c => !Str.isSpace c) =
        (javaTokens text).flatten := List.filter_eq_self.2 fun c hc => by rw [hfree c hc]; rfl
    rw [← hfilter, words_eq, flatten_wordsOf]
    refine List.Sublist.length_le (List.Sublist.filter _ ?_)
    unfold javaTokens
    split
    · exact List.nil_sublist _
    · rw [Java.tokenize, flatten_wordsOf]
      refine List.filter_sublist.trans ?_
      conv_rhs => rw [takeWhile_append_stripBy Java.isTrimmed text]
      exact (List.sublist_append_left _ _).trans (List.sublist_append_right _ _)
  omega

/-- A text and sizes that fit are cut alike. -/
theorem agree_of_fits (hlen : text.length < 2 ^ 31) (hs : Java.IsInt chunkSize)
    (hpy : Python.new chunkSize chunkOverlap = some py)
    (hjava : Java.new chunkSize chunkOverlap = some java) (h : Fits chunkSize chunkOverlap text) :
    Agree count count' py java text := by
  obtain ⟨hpsize, hpover, hjsize, hjover⟩ := sizes_of_new hpy hjava
  have hlt := java.overlap_lt
  have hlt' := py.overlap_lt
  obtain ⟨hsame, hrest⟩ := h
  have hwords := sameWords_iff.1 hsame
  by_cases hnil : text.words = []
  · exact ⟨[], java_of_nil (hwords.trans hnil), by rw [python_of_nil hnil]⟩
  obtain ⟨hpos, hfit⟩ := hrest.resolve_left hnil
  rw [if_neg hpos.ne'] at hpsize
  obtain ⟨size, hsize⟩ := Int.eq_ofNat_of_zero_le hpos.le
  obtain ⟨step, hstep⟩ : ∃ step : ℕ, py.chunkSize - py.chunkOverlap = step :=
    Int.eq_ofNat_of_zero_le (by omega)
  have hspos : 0 < step := by omega
  have hpython : (Python.chunkText count py text).map Chunk.text =
      (windows size step hspos text.words).map join :=
    python_texts hspos (by omega) (hpsize.trans hsize) hstep text
  rcases hfit with hshort | ⟨hover, hrange⟩
  · obtain ⟨chunks, hchunks, htexts⟩ : ∃ chunks, Java.chunkText count' java text = .ok chunks ∧ _ :=
      java_of_le (hjsize ▸ hs) (hwords ▸ hnil) (by rw [hwords, hjsize]; exact hshort)
    refine ⟨chunks, hchunks, ?_⟩
    rw [htexts, hpython, hwords, windows_of_le hnil (by omega)]
    rfl
  · rw [if_neg hover] at hpover
    have hsame' : java.chunkSize - java.chunkOverlap = step := by
      rw [hjsize, hjover, ← hpsize, ← hpover, hstep]
    obtain ⟨hs, hs'⟩ := hs
    obtain ⟨chunks, hchunks, htexts⟩ : ∃ chunks, Java.chunkText count' java text = .ok chunks ∧ _ :=
      java_texts hlen (by omega) hspos (by omega) (by omega) (hjsize.trans hsize) hsame'
    exact ⟨chunks, hchunks, by rw [htexts, hpython, hwords]⟩

/-- Without a size and an overlap below zero, only such texts are cut alike. -/
theorem fits_of_agree (hlen : text.length < 2 ^ 31) (hs : Java.IsInt chunkSize)
    (hpy : Python.new chunkSize chunkOverlap = some py)
    (hjava : Java.new chunkSize chunkOverlap = some java) (hsign : 0 ≤ chunkOverlap ∨ chunkSize ≤ 0)
    (h : Agree count count' py java text) : Fits chunkSize chunkOverlap text := by
  obtain ⟨hpsize, hpover, hjsize, hjover⟩ := sizes_of_new hpy hjava
  have hlt := java.overlap_lt
  have hlt' := py.overlap_lt
  obtain ⟨chunks, hchunks, htexts⟩ := h
  rcases lt_or_ge 0 chunkSize with hpos | hneg
  · rw [if_neg hpos.ne'] at hpsize
    obtain ⟨hs, hs'⟩ := hs
    obtain ⟨size, hsize⟩ := Int.eq_ofNat_of_zero_le hpos.le
    obtain ⟨step, hstep⟩ : ∃ step : ℕ, py.chunkSize - py.chunkOverlap = step :=
      Int.eq_ofNat_of_zero_le (by omega)
    obtain ⟨step', hstep'⟩ : ∃ step' : ℕ, java.chunkSize - java.chunkOverlap = step' :=
      Int.eq_ofNat_of_zero_le (by omega)
    have hpos' : 0 < size := by omega
    have hspos : 0 < step := by omega
    have hspos' : 0 < step' := by omega
    rw [python_texts hspos hpos' (hpsize.trans hsize) hstep text] at htexts
    obtain ⟨chunks', hchunks', htexts'⟩ :
        ∃ chunks, Java.chunkText count' java text = .ok chunks ∧ _ :=
      java_texts hlen hpos' hspos' (by omega) (by omega) (hjsize.trans hsize) hstep'
    rw [hchunks] at hchunks'
    cases hchunks'
    have hwindows := windows_eq_of_texts hpos' hpos' (htexts'.symm.trans htexts)
    rcases eq_or_ne chunkOverlap 0 with hzero | hover
    · -- The steps differ, by the default overlap.
      rw [if_pos hzero] at hpover
      have hself : step' = size := by omega
      subst hself
      have hshort := length_words_le (by omega) hwindows
      have hflat := flatten_windows_self hpos' (javaTokens text)
      rw [hwindows] at hflat
      by_cases hnil : text.words = []
      · rw [hnil, windows_nil, List.flatten_nil] at hflat
        exact ⟨sameWords_iff.2 (hflat.symm.trans hnil.symm), .inl hnil⟩
      · rw [windows_of_le hnil hshort, List.flatten_singleton] at hflat
        exact ⟨sameWords_iff.2 hflat.symm, .inr ⟨hpos, .inl (by omega)⟩⟩
    · rw [if_neg hover] at hpover
      have hsame : step' = step := by omega
      subst hsame
      have hwords := windows_injective (by omega) hwindows
      exact ⟨sameWords_iff.2 hwords, .inr ⟨hpos, .inr ⟨hover, by omega⟩⟩⟩
  · by_cases hnil : javaTokens text = []
    · rw [java_of_nil hnil] at hchunks
      obtain rfl := Except.ok.inj hchunks
      have hwords : text.words = [] := by
        by_contra hne
        exact python_ne_nil hne (List.map_eq_nil_iff.1 htexts.symm)
      exact ⟨sameWords_iff.2 (hnil.trans hwords.symm), .inl hwords⟩
    · rcases hneg.lt_or_eq with hneg | hzero
      · rw [java_of_neg (hjsize ▸ hs) (hjsize ▸ hneg) hnil] at hchunks
        exact nomatch hchunks
      · -- The port's first chunk is empty, the chunker's are not.
        have hempty := java_of_zero (hjsize.trans hzero) hnil hchunks
        rw [if_pos hzero] at hpsize
        obtain ⟨step, hstep⟩ : ∃ step : ℕ, py.chunkSize - py.chunkOverlap = step :=
          Int.eq_ofNat_of_zero_le (by omega)
        have hfull : 0 < 512 := by decide
        rw [htexts, python_texts (by omega) hfull hpsize hstep text] at hempty
        obtain ⟨w, hw, hjoin⟩ := List.mem_map.1 hempty
        obtain ⟨hne, hsub⟩ := subset_of_mem_windows hfull hw
        have hsplit := List.splitOn_intercalate ' '
          (fun t ht => blank_notMem_of_mem_words (hsub ht)) hne
        rw [show [' '].intercalate w = [] from hjoin] at hsplit
        have hword : ([] : Str) ∈ text.words := hsub (hsplit ▸ List.mem_cons_self)
        exact absurd rfl (ne_nil_of_mem_wordsOf hword)

/-- **The chunkers agree** on texts and sizes that fit, and where the overlap is not below zero, or
the size is not above it, only on these. -/
theorem chunkText_agrees (count count' : Str → ℕ × Bool) (text : Str) (chunkSize chunkOverlap : ℤ)
    (py : Python.TextChunker) (java : Java.TextChunker) (hlen : text.length < 2 ^ 31)
    (hs : Java.IsInt chunkSize) (hpy : Python.new chunkSize chunkOverlap = some py)
    (hjava : Java.new chunkSize chunkOverlap = some java) :
    (Fits chunkSize chunkOverlap text → Agree count count' py java text) ∧
    (0 ≤ chunkOverlap ∨ chunkSize ≤ 0 → Agree count count' py java text →
      Fits chunkSize chunkOverlap text) :=
  ⟨agree_of_fits hlen hs hpy hjava, fits_of_agree hlen hs hpy hjava⟩

end Agree

/-! ### Two words, and texts that are cut apart -/

namespace Sample

/-- No tokens are counted. -/
def uncounted (_ : Str) : ℕ × Bool := (0, false)

def python (chunkSize chunkOverlap : ℤ) (h : chunkOverlap < chunkSize) : Python.TextChunker :=
  ⟨chunkSize, chunkOverlap, h⟩

def java (chunkSize chunkOverlap : ℤ) (h : chunkOverlap < chunkSize) : Java.TextChunker :=
  ⟨chunkSize, chunkOverlap, h⟩

/-- The letter a, a number of times, with blanks between. -/
def letters (n : ℕ) : Str := join (List.replicate n ['a'])

theorem chunkText_agrees_letters :
    Agree uncounted uncounted (python 3 1 (by decide)) (java 3 1 (by decide)) (letters 5) ∧
      (Python.chunkText uncounted (python 3 1 (by decide)) (letters 5)).map Chunk.text =
        [letters 3, letters 3] := by
  have hbody : (Java.stripBy Java.isTrimmed (letters 5)).all (fun c =>
      !Str.isSpace c || Java.isSplit c) = true := by decide
  have hends : (trimmedOff (letters 5)).all Str.isSpace = true := by decide
  refine ⟨(chunkText_agrees uncounted uncounted (letters 5) 3 1 _ _ (by decide)
    ⟨by decide, by decide⟩ rfl rfl).1 ⟨.inr ⟨fun c hc hspace => ?_, List.all_eq_true.1 hends⟩,
      .inr ⟨by decide, .inr ⟨by decide, by decide⟩⟩⟩, by decide⟩
  have hc' := List.all_eq_true.1 hbody c hc
  rwa [hspace, Bool.not_true, Bool.false_or] at hc'

/-- A space that does not break, an overlap of zero, and one so far below zero that the step
overflows. -/
theorem cut_apart :
    (Python.new 9 2 = some (python 9 2 (by decide)) ∧ Java.new 9 2 = some (java 9 2 (by decide)) ∧
      ¬ Agree uncounted uncounted (python 9 2 (by decide)) (java 9 2 (by decide))
        ['a', '\u00a0', 'b']) ∧
    (Python.new 51 0 = some (python 51 50 (by decide)) ∧
      Java.new 51 0 = some (java 51 0 (by decide)) ∧
      ¬ Agree uncounted uncounted (python 51 50 (by decide)) (java 51 0 (by decide)) (letters 52)) ∧
    Python.new 1 (-2 ^ 31) = some (python 1 (-2 ^ 31) (by decide)) ∧
      Java.new 1 (-2 ^ 31) = some (java 1 (-2 ^ 31) (by decide)) ∧
      ¬ Agree uncounted uncounted (python 1 (-2 ^ 31) (by decide)) (java 1 (-2 ^ 31) (by decide))
        (letters 2) := by
  have hne : ∀ {py : Python.TextChunker} {java : Java.TextChunker} {text : Str} {texts : List Str},
      (Java.chunkText uncounted java text).map (List.map Chunk.text) = .ok texts →
      texts ≠ (Python.chunkText uncounted py text).map Chunk.text →
      ¬ Agree uncounted uncounted py java text := by
    rintro py java text texts hjava hdiffer ⟨chunks, hchunks, hsame⟩
    rw [hchunks] at hjava
    exact hdiffer ((Except.ok.inj hjava).symm.trans hsame)
  have hspace : (Java.chunkText uncounted (java 9 2 (by decide)) ['a', '\u00a0', 'b']).map
      (List.map Chunk.text) = .ok [['a', '\u00a0', 'b']] := by rfl
  have hzero : (Java.chunkText uncounted (java 51 0 (by decide)) (letters 52)).map
      (List.map Chunk.text) = .ok [letters 51, letters 1] := by rfl
  refine ⟨⟨rfl, rfl, hne hspace (by decide)⟩, ⟨rfl, rfl, hne hzero (by decide)⟩, rfl, rfl,
    ?_⟩
  rintro ⟨chunks, hchunks, -⟩
  rw [java_of_overflow ⟨by decide, by decide⟩ ⟨by decide, by decide⟩ (by decide) (by decide)
    (by decide)] at hchunks
  exact nomatch hchunks

end Sample

end ChunkerPort

end RagLeap.Rag
