import RagLeap.Core.Usage
import RagLeap.Foundations.Generator

/-!
# Streamed answers

`generate_answer_stream` (`core.generation`) as a generator over the chain of providers. The ledger
row of a stream is written after its last piece was consumed, after the note about a truncated
answer, or where an error ends it. A consumer that closes the generator earlier leaves no row
(`accounted_iff`); the text comes from one provider in every case (`single_provider`).
-/

namespace RagLeap.Generation

open Budget

/-- How a provider behaves in one streamed call: the pieces, and then the finish reason if it gives
one, or none at all where it raises. -/
structure Stream where
  pieces : List Str
  ending : Option (Option Str)

/-- What the generator yields; a text carries the position of its provider in the chain. -/
inductive Piece
  | text (provider : ℕ) (s : Str)
  | truncated
  | interrupted
  | failed

def Piece.render : Piece → Str
  | text _ s => s
  | truncated => "\n\n_[Note: this answer was cut short by the model's output limit.]_".toList
  | interrupted => "\n[Error: generation interrupted]".toList
  | failed =>
    ("Sorry, I couldn't generate an answer; all configured providers failed. ".toList ++
      "Please try again later.".toList)

def TRUNCATED_FINISH_REASONS : List Str := ["MAX_TOKENS", "max_tokens", "length"].map String.toList

/-- The finish reason says that the answer was cut short. -/
def isTruncated (reason : Option Str) : Bool := reason.any (· ∈ TRUNCATED_FINISH_REASONS)

variable (role : Option Str) (prompt : Str)

/-- What follows the pieces of a provider that gave some or came to its end. -/
def afterPieces (config : Config) (stream : Stream) : Generator Piece UsageRow :=
  let row := recordUsage role config prompt stream.pieces.flatten none
  match stream.ending with
  | some reason =>
    if isTruncated reason then .yield .truncated (.emit row .done) else .emit row .done
  | none => .emit row (.yield .interrupted .done)

/-- `generate_answer_stream` from the `i`-th provider of the chain on. -/
def generateAnswerStream : ℕ → List (Config × Stream) → Generator Piece UsageRow
  | _, [] => .yield .failed .done
  | i, (config, stream) :: chain =>
    .yieldAll (stream.pieces.map (.text i))
      (if stream.ending = none ∧ stream.pieces = [] then generateAnswerStream (i + 1) chain
        else afterPieces role prompt config stream)

/-- The texts of the providers among what was yielded. -/
def texts (yielded : List Piece) : List (ℕ × Str) :=
  yielded.filterMap fun
    | .text i s => some (i, s)
    | _ => none

/-- The call that yielded text has its row, for that text, and the text is of one provider. -/
structure Accounted (chain : List (Config × Stream)) (run : Generator.Run Piece UsageRow) : Prop where
  single : ∀ e ∈ texts run.yielded, ∀ e' ∈ texts run.yielded, e.1 = e'.1
  recorded : ∀ e ∈ texts run.yielded, ∃ config stream, chain[e.1]? = some (config, stream) ∧
    run.emitted =
      [recordUsage role config prompt ((texts run.yielded).map Prod.snd).flatten none]

/-- The first provider that gives a piece or comes to its end. -/
def serving (chain : List (Config × Stream)) : Option (Config × Stream) :=
  chain.find? fun e => e.2.ending.isSome || e.2.pieces ≠ []

/-- What the generator yields before the row is written. -/
def yieldsBefore (stream : Stream) : ℕ :=
  stream.pieces.length + if stream.ending.any isTruncated then 1 else 0

/-- The consumer does not close the generator at a provider's piece or at the note about a truncated
answer. -/
def ReadsPast (chain : List (Config × Stream)) (consumer : Option ℕ) : Prop :=
  ∀ e, serving chain = some e → e.2.pieces ≠ [] →
    ∀ k, consumer = some k → k = 0 ∨ yieldsBefore e.2 < k

/-! ## The texts of a run -/

theorem texts_append (ys ys' : List Piece) : texts (ys ++ ys') = texts ys ++ texts ys' :=
  List.filterMap_append

theorem texts_map (i : ℕ) (pieces : List Str) :
    texts (pieces.map (.text i)) = pieces.map fun s => (i, s) := by
  unfold texts
  rw [List.filterMap_map]
  exact List.filterMap_eq_map' (f := fun s => (i, s)) ▸ rfl

/-- The chain is followed to the provider that serves; only its call yields text. -/
theorem generateAnswerStream_eq (i : ℕ) (chain : List (Config × Stream)) :
    serving chain = none ∧ generateAnswerStream role prompt i chain = .yield .failed .done ∨
      ∃ j config stream, chain[j]? = some (config, stream) ∧
        serving chain = some (config, stream) ∧
        generateAnswerStream role prompt i chain =
          .yieldAll (stream.pieces.map (.text (i + j))) (afterPieces role prompt config stream) := by
  induction chain generalizing i with
  | nil => exact .inl ⟨rfl, rfl⟩
  | cons e chain ih =>
    obtain ⟨config, stream⟩ := e
    by_cases hskip : stream.ending = none ∧ stream.pieces = []
    · have hserving : serving ((config, stream) :: chain) = serving chain := by
        unfold serving
        rw [List.find?_cons_of_neg]
        simp [hskip.1, hskip.2]
      have hgen : generateAnswerStream role prompt i ((config, stream) :: chain) =
          generateAnswerStream role prompt (i + 1) chain := by
        rw [generateAnswerStream, if_pos hskip, hskip.2]
        rfl
      rw [hserving, hgen]
      rcases ih (i + 1) with hnone | ⟨j, config', stream', hget, hserves, heq⟩
      · exact .inl hnone
      · refine .inr ⟨j + 1, config', stream', hget, hserves, ?_⟩
        rw [heq, Nat.add_assoc, Nat.add_comm 1 j]
    · refine .inr ⟨0, config, stream, rfl, ?_, ?_⟩
      · unfold serving
        rw [List.find?_cons_of_pos]
        rw [not_and_or] at hskip
        rcases hskip with hending | hpieces
        · simp [Option.isSome_iff_ne_none.2 hending]
        · simp [hpieces]
      · rw [generateAnswerStream, if_neg hskip]
        rfl

/-- After the pieces no text is yielded, and the row is written if the consumer goes on past what
comes before it. -/
theorem drive_afterPieces (config : Config) (stream : Stream) (k : Option ℕ) :
    texts ((afterPieces role prompt config stream).drive k).yielded = [] ∧
      ((afterPieces role prompt config stream).drive k).emitted =
        if ∀ m, k = some m → yieldsBefore stream < stream.pieces.length + m then
          [recordUsage role config prompt stream.pieces.flatten none]
        else [] := by
  unfold afterPieces yieldsBefore
  cases hending : stream.ending with
  | none =>
    rcases k with _ | _ | m
    · exact ⟨rfl, by simp; rfl⟩
    · simp [texts]
    · rcases m with _ | m <;> exact ⟨rfl, by simp; rfl⟩
  | some reason =>
    dsimp only
    cases htrunc : isTruncated reason with
    | false =>
      rcases k with _ | _ | m
      · exact ⟨rfl, by simp [htrunc]; rfl⟩
      · simp [texts, htrunc]
      · exact ⟨rfl, by simp [htrunc]; rfl⟩
    | true =>
      rcases k with _ | _ | _ | m
      · exact ⟨rfl, by simp; rfl⟩
      · simp [texts]
      · exact ⟨rfl, by simp [htrunc]; rfl⟩
      · exact ⟨rfl, by simp [htrunc]; rfl⟩

/-- What the serving provider's call comes to: closed at the `k`-th piece it leaves no row, and past
the pieces it leaves the row as `drive_afterPieces` has it. -/
theorem drive_serving (i : ℕ) (config : Config) (stream : Stream) (consumer : Option ℕ) :
    (∃ k, consumer = some k ∧ k ≤ stream.pieces.length ∧
      Generator.drive (.yieldAll (stream.pieces.map (.text i))
        (afterPieces role prompt config stream)) consumer =
          ⟨(stream.pieces.take k).map (.text i), []⟩) ∨
      (∀ k, consumer = some k → stream.pieces.length < k) ∧ ∃ rest, texts rest = [] ∧
        Generator.drive (.yieldAll (stream.pieces.map (.text i))
          (afterPieces role prompt config stream)) consumer =
            ⟨stream.pieces.map (.text i) ++ rest,
              if ∀ k, consumer = some k → yieldsBefore stream < k then
                [recordUsage role config prompt stream.pieces.flatten none]
              else []⟩ := by
  cases consumer with
  | none =>
    obtain ⟨htexts, hrow⟩ := drive_afterPieces role prompt config stream none
    refine .inr ⟨nofun, _, htexts, ?_⟩
    rw [Generator.drive_yieldAll_none, hrow]
    simp
  | some k =>
    by_cases hle : k ≤ stream.pieces.length
    · refine .inl ⟨k, rfl, hle, ?_⟩
      rw [Generator.drive_yieldAll_of_le _ _ (by rwa [List.length_map]), List.map_take]
    · obtain ⟨m, rfl⟩ : ∃ m, k = stream.pieces.length + m :=
        ⟨k - stream.pieces.length, by omega⟩
      obtain ⟨htexts, hrow⟩ :=
        drive_afterPieces role prompt config stream (some m)
      refine .inr ⟨fun k hk => Option.some.inj hk ▸ not_le.1 hle, _, htexts, ?_⟩
      have hadd := Generator.drive_yieldAll_add (stream.pieces.map (.text i))
        (afterPieces role prompt config stream) m
      rw [List.length_map] at hadd
      rw [hadd, hrow]
      simp

/-- All text that is yielded comes from one provider. -/
theorem single_provider (chain : List (Config × Stream)) (consumer : Option ℕ) :
    ∃ i, ∀ e ∈ texts ((generateAnswerStream role prompt 0 chain).drive consumer).yielded, e.1 = i := by
  rcases generateAnswerStream_eq role prompt 0 chain with
    ⟨-, hgen⟩ | ⟨j, config, stream, -, -, hgen⟩
  · refine ⟨0, ?_⟩
    rw [hgen]
    rcases consumer with _ | _ | _ | k <;> simp [Generator.drive, texts]
  · refine ⟨0 + j, ?_⟩
    rw [hgen]
    rcases drive_serving role prompt (0 + j) config stream consumer with
      ⟨k, -, -, hdrive⟩ | ⟨-, rest, hrest, hdrive⟩
    · rw [hdrive, texts_map]
      intro e he
      obtain ⟨s, -, rfl⟩ := List.mem_map.1 he
      rfl
    · rw [hdrive, texts_append, hrest, List.append_nil, texts_map]
      intro e he
      obtain ⟨s, -, rfl⟩ := List.mem_map.1 he
      rfl

/-- **The row of a stream.** The call that yields text is accounted for exactly when the consumer
does not close the generator at a piece or at the note about a truncated answer. -/
theorem accounted_iff (chain : List (Config × Stream))
    (consumer : Option ℕ) :
    Accounted role prompt chain ((generateAnswerStream role prompt 0 chain).drive consumer) ↔
      ReadsPast chain consumer := by
  obtain ⟨provider, hprovider⟩ := single_provider role prompt chain consumer
  have hsingle : ∀ e ∈ texts ((generateAnswerStream role prompt 0 chain).drive consumer).yielded,
      ∀ e' ∈ texts ((generateAnswerStream role prompt 0 chain).drive consumer).yielded,
        e.1 = e'.1 :=
    fun e he e' he' => (hprovider e he).trans (hprovider e' he').symm
  rcases generateAnswerStream_eq role prompt 0 chain with
    ⟨hnone, hgen⟩ | ⟨j, config, stream, hget, hserves, hgen⟩
  · refine iff_of_true ⟨hsingle, ?_⟩ ?_
    · rw [hgen]
      intro e he
      rcases consumer with _ | _ | _ | k <;> simp [Generator.drive, texts] at he
    · intro e he
      rw [hnone] at he
      cases he
  · rw [Nat.zero_add] at hgen
    have hreads : ReadsPast chain consumer ↔ (stream.pieces ≠ [] →
        ∀ k, consumer = some k → k = 0 ∨ yieldsBefore stream < k) := by
      constructor
      · intro h
        exact h _ hserves
      · intro h e he
        rw [hserves] at he
        cases he
        exact h
    have hlength : stream.pieces.length ≤ yieldsBefore stream := Nat.le_add_right _ _
    rw [hreads]
    rcases drive_serving role prompt j config stream consumer with
      ⟨k, rfl, hle, hdrive⟩ | ⟨hpast, rest, hrest, hdrive⟩
    · -- closed at one of the pieces, or before the first
      rw [← hgen] at hdrive
      have htexts : texts ((generateAnswerStream role prompt 0 chain).drive (some k)).yielded = [] ↔
          k = 0 ∨ stream.pieces = [] := by
        rw [hdrive, texts_map, List.map_eq_nil_iff, List.take_eq_nil_iff]
      constructor
      · intro h hpieces k' hk'
        cases hk'
        by_contra hnot
        rw [not_or] at hnot
        have hne : texts ((generateAnswerStream role prompt 0 chain).drive (some k)).yielded ≠ [] :=
          fun heq => (htexts.1 heq).elim hnot.1 hpieces
        obtain ⟨e, he⟩ := List.exists_mem_of_ne_nil _ hne
        obtain ⟨_, _, _, hrow⟩ := h.recorded e he
        rw [hdrive] at hrow
        cases hrow
      · intro h
        refine ⟨hsingle, ?_⟩
        have hnil := htexts.2 (by
          by_cases hpieces : stream.pieces = []
          · exact .inr hpieces
          · exact .inl ((h hpieces k rfl).resolve_right (by omega)))
        rw [hnil]
        intro e he
        cases he
    · -- read past the pieces
      rw [← hgen] at hdrive
      have htexts : texts ((generateAnswerStream role prompt 0 chain).drive consumer).yielded =
          stream.pieces.map fun s => (j, s) := by
        rw [hdrive, texts_append, hrest, List.append_nil, texts_map]
      constructor
      · intro h hpieces k hk
        right
        obtain ⟨s, hs⟩ := List.exists_mem_of_ne_nil _ hpieces
        obtain ⟨_, _, _, hrow⟩ := h.recorded (j, s) (htexts ▸ List.mem_map_of_mem hs)
        rw [hdrive] at hrow
        by_contra hnot
        rw [if_neg (fun hall => hnot (hall k hk))] at hrow
        cases hrow
      · intro h
        refine ⟨hsingle, ?_⟩
        rw [htexts]
        intro e he
        obtain ⟨s, hs, rfl⟩ := List.mem_map.1 he
        refine ⟨config, stream, hget, ?_⟩
        have hcond : ∀ k, consumer = some k → yieldsBefore stream < k := by
          intro k hk
          have hlt := hpast k hk
          exact (h (List.ne_nil_of_mem hs) k hk).resolve_left (by omega)
        rw [hdrive, if_pos hcond, List.map_map]
        exact congrArg (fun pieces : List Str => [recordUsage role config prompt pieces.flatten none])
          (List.map_id _).symm

/-! ### A consumer that stops -/

/-- A provider that streams one piece and comes to its end. -/
def hello : List (Config × Stream) :=
  [(⟨"gemini".toList, "m".toList⟩, ⟨["hello".toList], some (some "STOP".toList)⟩)]

/-- A consumer that closes the generator at the first piece leaves no row. -/
theorem closed_stream_unrecorded : ¬ ∀ role prompt chain consumer,
    Accounted role prompt chain ((generateAnswerStream role prompt 0 chain).drive consumer) := by
  intro h
  obtain ⟨_, _, _, hrow⟩ := (h none [] hello (some 1)).recorded (0, "hello".toList)
    (List.mem_singleton.2 rfl)
  have hnone : ((generateAnswerStream none [] 0 hello).drive (some 1)).emitted = [] := rfl
  rw [hnone] at hrow
  cases hrow

end RagLeap.Generation
