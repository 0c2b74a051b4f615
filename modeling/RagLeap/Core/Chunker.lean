import RagLeap.Foundations.Text

/-!
# Splitting a text into chunks

`TextChunker.chunkText` cuts the words of a text into overlapping windows. The chunker of the
application and the one of the package `ragleap-rag` are the same up to how they count the tokens
of a chunk, which is the parameter `tokenCount`.
-/

namespace RagLeap

/-- A piece of a text, as it is embedded and stored. -/
structure Chunk where
  text : Str
  chunkIndex : ℕ
  tokenCount : ℕ
  deriving DecidableEq

/-- The window and its overlap with the next one. -/
structure TextChunker where
  chunkSize : ℕ
  chunkOverlap : ℕ
  overlap_lt : chunkOverlap < chunkSize

/-- `range(0, stop, step)`. -/
def rangeStep (stop step : ℕ) : List ℕ := (List.range ((stop + step - 1) / step)).map (· * step)

namespace TextChunker

/-- `TextChunker()`. -/
def default : TextChunker := ⟨512, 50, by decide⟩

/-- The chunks from the given starts on, up to the one that reaches the last token. -/
def collect (c : TextChunker) (tokenCount : List Str → ℕ) (tokens : List Str) :
    List ℕ → ℕ → List Chunk
  | [], _ => []
  | start :: starts, chunkIndex =>
    let stop := min (start + c.chunkSize) tokens.length
    let chunkTokens := (tokens.take stop).drop start
    ⟨[' '].intercalate chunkTokens, chunkIndex, tokenCount chunkTokens⟩ ::
      if stop = tokens.length then [] else c.collect tokenCount tokens starts (chunkIndex + 1)

/-- `chunk_text`. -/
def chunkText (c : TextChunker) (tokenCount : List Str → ℕ) (text : Str) : List Chunk :=
  if text.strip = [] then []
  else
    let tokens := text.words
    if tokens.length = 0 then []
    else c.collect tokenCount tokens (rangeStep tokens.length (c.chunkSize - c.chunkOverlap)) 0

end TextChunker

end RagLeap
