import RagLeap.Rag.ChunkerPort

/-!
# Chunks cover the text

What the chunkers of the application and of `ragleap-rag` are asked for: chunks of at most the
requested size, each of which shares the requested overlap with the next one, up to the last word
(`Covers`). The constructor takes a size or an overlap of zero for the default and lets negative
ones pass, so the chunks are as requested exactly if the size is positive and either the words fit
into one chunk or the overlap is positive (`chunks_cover_iff`).
-/

namespace RagLeap.Rag.ChunkerPort

namespace Python

/-- `TextChunker(chunk_size, chunk_overlap)`, or `create_chunker`; none for `None`. -/
def create (chunkSize chunkOverlap : Option ℤ) : Option TextChunker :=
  new (chunkSize.getD 0) (chunkOverlap.getD 0)

/-- The size that was asked for. -/
def requestedSize (chunkSize : Option ℤ) : ℤ := chunkSize.getD DEFAULT_CHUNK_SIZE

/-- The overlap that was asked for. -/
def requestedOverlap (chunkOverlap : Option ℤ) : ℤ := chunkOverlap.getD DEFAULT_CHUNK_OVERLAP

/-- The words of the chunks. -/
def chunkWords (chunks : List Chunk) : List (List Str) := chunks.map fun chunk => chunk.text.words

end Python

open Python

/-- The chunks are as requested. -/
def CoversText (size overlap : ℤ) (tokens : List Str) (parts : List (List Str)) : Prop :=
  tokens = [] ∧ parts = [] ∨ tokens ≠ [] ∧ Covers size overlap tokens 0 parts

theorem words_join {ws : List Str} (h : ∀ w ∈ ws, w ≠ [] ∧ ∀ c ∈ w, Str.isSpace c = false) :
    (join ws).words = ws := by
  induction ws with
  | nil => rfl
  | cons w ws ih =>
    obtain ⟨hne, hfree⟩ := h w List.mem_cons_self
    have hrest := ih fun w' hw' => h w' (List.mem_cons_of_mem w hw')
    have hone : wordsOf Str.isSpace w = [w] := wordsOf_singleton hne hfree
    cases ws with
    | nil =>
      rw [join, List.intercalate_singleton]
      exact hone
    | cons w' ws =>
      rw [join, List.intercalate_cons_cons, ← join, words_eq, List.append_assoc,
        List.singleton_append, wordsOf_append_cons (by decide), hone, ← words_eq, hrest]
      rfl

theorem word_of_mem_words {text w : Str} (h : w ∈ text.words) :
    w ≠ [] ∧ ∀ c ∈ w, Str.isSpace c = false :=
  ⟨ne_nil_of_mem_wordsOf h, fun _ hc => not_of_mem_wordsOf h hc⟩

section

variable {count : Str → ℕ × Bool} {c : Python.TextChunker} {text : Str}
  {chunkSize chunkOverlap : Option ℤ}

/-- The sizes of an accepted pair. -/
theorem sizes_of_create (h : create chunkSize chunkOverlap = some c) :
    c.chunkSize = orDefault (chunkSize.getD 0) DEFAULT_CHUNK_SIZE ∧
      c.chunkOverlap = orDefault (chunkOverlap.getD 0) DEFAULT_CHUNK_OVERLAP := by
  rw [create, new] at h
  split_ifs at h
  obtain rfl := Option.some.inj h
  exact ⟨rfl, rfl⟩

/-- A value other than zero is what was requested. -/
theorem orDefault_getD {value : Option ℤ} {default : ℤ} (h : value ≠ some 0) :
    orDefault (value.getD 0) default = value.getD default := by
  cases value with
  | none => rfl
  | some n => rw [Option.getD_some, orDefault, if_neg (fun hn => h (by rw [hn])), Option.getD_some]

theorem chunkWords_eq {size step : ℕ} (hstep : 0 < step) (hsize : 0 < size)
    (hc : c.chunkSize = size) (hc' : c.chunkSize - c.chunkOverlap = step) :
    chunkWords (chunkText count c text) = windows size step hstep text.words := by
  have htexts : (chunkText count c text).map Chunk.text =
      (windows size step hstep text.words).map join := python_texts hstep hsize hc hc' text
  have hmap : chunkWords (chunkText count c text) =
      ((chunkText count c text).map Chunk.text).map Str.words := by
    rw [List.map_map]
    rfl
  rw [hmap, htexts, List.map_map]
  refine (List.map_congr_left fun w hw => ?_).trans (List.map_id _)
  exact words_join fun t ht => word_of_mem_words ((subset_of_mem_windows hsize hw).2 ht)

theorem chunks_cover (h : create chunkSize chunkOverlap = some c)
    (hsize : 1 ≤ requestedSize chunkSize)
    (hfits : text.words.length ≤ requestedSize chunkSize ∨ 1 ≤ requestedOverlap chunkOverlap)
    (hne : text.words ≠ []) :
    Covers (requestedSize chunkSize) (requestedOverlap chunkOverlap) text.words 0
      (chunkWords (chunkText count c text)) := by
  have hlt := c.overlap_lt
  obtain ⟨hc, hc'⟩ := sizes_of_create h
  have hset : chunkSize ≠ some 0 := by
    rintro rfl
    exact absurd hsize (by decide)
  rw [orDefault_getD hset, ← requestedSize] at hc
  obtain ⟨size, hsize'⟩ := Int.eq_ofNat_of_zero_le (show 0 ≤ requestedSize chunkSize by omega)
  obtain ⟨step, hstep'⟩ := Int.eq_ofNat_of_zero_le (show 0 ≤ c.chunkSize - c.chunkOverlap by omega)
  have hstep : 0 < step := by omega
  rw [chunkWords_eq hstep (by omega) (hc.trans hsize') hstep', hsize']
  by_cases hlong : text.words.length ≤ size
  · rw [windows_of_le hne hlong]
    exact .last (by rw [List.drop_zero]; omega)
  · have hoverlap : 1 ≤ requestedOverlap chunkOverlap := by omega
    have hset' : chunkOverlap ≠ some 0 := by
      rintro rfl
      exact absurd hoverlap (by decide)
    rw [orDefault_getD hset', ← requestedOverlap] at hc'
    have hdiff : requestedOverlap chunkOverlap = (size : ℤ) - step := by omega
    rw [hdiff]
    exact covers_windows hstep (by omega) 0 hne

theorem of_chunks_cover (h : create chunkSize chunkOverlap = some c)
    (hcover : Covers (requestedSize chunkSize) (requestedOverlap chunkOverlap) text.words 0
      (chunkWords (chunkText count c text))) (hne : text.words ≠ []) :
    1 ≤ requestedSize chunkSize ∧
      (text.words.length ≤ requestedSize chunkSize ∨ 1 ≤ requestedOverlap chunkOverlap) := by
  have hlt := c.overlap_lt
  obtain ⟨hc, hc'⟩ := sizes_of_create h
  obtain ⟨w, ws, hws⟩ : ∃ w ws, chunkWords (chunkText count c text) = w :: ws := by
    have hchunks : chunkText count c text ≠ [] := python_ne_nil hne
    exact List.exists_cons_of_ne_nil fun hnil => hchunks (List.map_eq_nil_iff.1 hnil)
  have hfirst := length_le_of_covers hcover (hws ▸ List.mem_cons_self)
  obtain ⟨step, hstep'⟩ := Int.eq_ofNat_of_zero_le (show 0 ≤ c.chunkSize - c.chunkOverlap by omega)
  have hstep : 0 < step := by omega
  have hsize : 1 ≤ requestedSize chunkSize := by
    by_contra hzero
    have hzero' : requestedSize chunkSize = 0 := by omega
    have hset : chunkSize = some 0 := by
      cases chunkSize with
      | none => exact absurd hzero' (by decide)
      | some n => exact congrArg some hzero'
    have hdefault : c.chunkSize = (512 : ℕ) := by
      rw [hc, hset]
      rfl
    rw [chunkWords_eq hstep (by decide) hdefault hstep'] at hws
    have hmem : w ∈ windows 512 step hstep text.words := hws ▸ List.mem_cons_self
    have hpos := List.length_pos_of_ne_nil (subset_of_mem_windows (by decide) hmem).1
    omega
  refine ⟨hsize, ?_⟩
  by_contra hnot
  rw [not_or] at hnot
  obtain ⟨hlong, hoverlap⟩ := hnot
  have hset : chunkSize ≠ some 0 := by
    rintro rfl
    exact absurd hsize (by decide)
  rw [orDefault_getD hset, ← requestedSize] at hc
  obtain ⟨size, hsize'⟩ := Int.eq_ofNat_of_zero_le (show 0 ≤ requestedSize chunkSize by omega)
  have hlong' : size < text.words.length := by omega
  rw [chunkWords_eq hstep (by omega) (hc.trans hsize') hstep', hsize'] at hcover
  have hnonneg : 0 ≤ requestedOverlap chunkOverlap := by
    rw [windows_of_lt hlong'] at hcover
    generalize windows size step hstep (text.words.drop step) = ws at hcover
    generalize hw : text.words.take size = w at hcover
    have hlen : w.length = size := by
      rw [← hw, List.length_take]
      omega
    cases hcover with
    | last hsize =>
      rw [List.drop_zero] at hlen
      omega
    | next hstart hstop hsize hrest hoverlap h =>
      rw [List.drop_zero, List.length_take] at hlen
      omega
  have hzero : requestedOverlap chunkOverlap = 0 := by omega
  have hset' : chunkOverlap = some 0 := by
    cases chunkOverlap with
    | none => exact absurd hzero (by decide)
    | some n => exact congrArg some hzero
  have hdefault : c.chunkOverlap = 50 := by
    rw [hc', hset']
    rfl
  -- Without overlap the chunks hold as many words as the text, and the windows hold more.
  rw [hzero] at hcover
  have hflat := flatten_of_covers hcover (Nat.zero_le _)
  have hmore := sum_lt_windows (fun _ => 1) (fun _ _ => Nat.one_pos) hstep (by omega) hlong'
  rw [hflat, List.drop_zero] at hmore
  exact absurd hmore (Nat.lt_irrefl _)

/-! ## The application's chunker -/

theorem slice_natCast (tokens : List Str) (start stop : ℕ) (hstop : stop ≤ tokens.length) :
    slice tokens start stop = (tokens.take stop).drop start := by
  rw [slice, place, place, if_neg (by omega), if_neg (by omega), Int.toNat_natCast,
    Int.toNat_natCast, Nat.min_eq_left hstop]
  rcases Nat.le_total start tokens.length with hle | hle
  · rw [Nat.min_eq_left hle]
  · rw [Nat.min_eq_right hle, List.drop_eq_nil_of_le (by simp), List.drop_eq_nil_of_le]
    rw [List.length_take]
    omega

theorem core_collect (core : RagLeap.TextChunker) (tokenCount : List Str → ℕ) (tokens : List Str)
    (starts : List ℕ) (i j : ℕ) :
    (core.collect tokenCount tokens starts i).map RagLeap.Chunk.text =
      (Python.collect count core.chunkSize tokens starts j).map Chunk.text := by
  induction starts generalizing i j with
  | nil => rfl
  | cons start starts ih =>
    have hstop : min ((start : ℤ) + core.chunkSize) tokens.length =
        (min (start + core.chunkSize) tokens.length : ℕ) := by
      omega
    rw [TextChunker.collect, Python.collect, hstop,
      slice_natCast tokens start _ (Nat.min_le_right _ _), List.map_cons, List.map_cons]
    refine congrArg (_ :: ·) ?_
    by_cases hend : min (start + core.chunkSize) tokens.length = tokens.length
    · rw [if_pos hend, if_pos (by omega)]
      rfl
    · rw [if_neg hend, if_neg (by omega)]
      exact ih _ _

/-- The application's chunker cuts a text as the one of `ragleap-rag` does. -/
theorem core_texts (core : RagLeap.TextChunker) (tokenCount : List Str → ℕ) (text : Str)
    (hsize : c.chunkSize = core.chunkSize) (hoverlap : c.chunkOverlap = core.chunkOverlap) :
    (core.chunkText tokenCount text).map RagLeap.Chunk.text =
      (Python.chunkText count c text).map Chunk.text := by
  rw [TextChunker.chunkText, Python.chunkText]
  split_ifs
  · rfl
  · have hlt := core.overlap_lt
    have hstep : (c.chunkSize - c.chunkOverlap).toNat = core.chunkSize - core.chunkOverlap := by
      omega
    dsimp only
    split_ifs
    · rfl
    · rw [hstep, hsize]
      exact core_collect core tokenCount text.words _ 0 0

/-- **The chunks are as requested** exactly if there are no words, or the requested size is positive
and the words fit into one chunk or the requested overlap is positive. -/
theorem chunks_cover_iff (count : Str → ℕ × Bool) (text : Str) (chunkSize chunkOverlap : Option ℤ)
    (c : Python.TextChunker) (h : create chunkSize chunkOverlap = some c) :
    CoversText (requestedSize chunkSize) (requestedOverlap chunkOverlap) text.words
        (chunkWords (chunkText count c text)) ↔
      text.words = [] ∨ 1 ≤ requestedSize chunkSize ∧
        (text.words.length ≤ requestedSize chunkSize ∨ 1 ≤ requestedOverlap chunkOverlap) := by
  rw [CoversText]
  by_cases hne : text.words = []
  · have hnil : chunkWords (chunkText count c text) = [] := by
      rw [python_of_nil hne]
      rfl
    exact iff_of_true (.inl ⟨hne, hnil⟩) (.inl hne)
  · rw [or_iff_right fun h => hne h.1, or_iff_right hne, and_iff_right hne]
    exact ⟨fun hcover => of_chunks_cover h hcover hne, fun hc => chunks_cover h hc.1 hc.2 hne⟩

end

namespace Sample

/-- The overlap of zero that was asked for is fifty. -/
theorem zero_not_kept : Python.create (some 51) (some 0) = some (python 51 50 (by decide)) ∧
    ¬ CoversText (requestedSize (some 51)) (requestedOverlap (some 0)) (letters 52).words
      (chunkWords (Python.chunkText uncounted (python 51 50 (by decide)) (letters 52))) := by
  refine ⟨rfl, ?_⟩
  rintro (⟨hnil, -⟩ | ⟨-, hcover⟩)
  · revert hnil
    decide
  · have hflat := congrArg List.length (flatten_of_covers hcover (Nat.zero_le _))
    revert hflat
    decide

theorem chunks_cover_iff_letters : CoversText 3 1 (letters 5).words
    (chunkWords (Python.chunkText uncounted (python 3 1 (by decide)) (letters 5))) :=
  (chunks_cover_iff uncounted (letters 5) (some 3) (some 1) (python 3 1 (by decide)) rfl).2
    (.inr ⟨by decide, .inr (by decide)⟩)

end Sample

end RagLeap.Rag.ChunkerPort
