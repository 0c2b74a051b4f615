import Mathlib.Algebra.Order.Ring.Rat
import Mathlib.Data.List.Sort
import RagLeap.Foundations.Text

/-!
# What the owner told the employees

`write_learned_skill` and the searches of `core/employees/memory.py`, and
`learn_from_owner_instruction` of `core/employees/learning.py`, on the table `employee_memory` with
its unique index over `(content_hash, source)`. A history is a list of events: instructions, and
writes from other sources. `World` is what a write meets: whether the transaction goes through,
the embedding, the time.

The table keeps the first text written under each hash (`Kept`), and the hash looks at the first
200 characters. `instructions_stored_iff` says when every instruction of a history is stored, and
`mem_tagSearch_or_full` that a stored one is found.
-/

namespace RagLeap.EmployeeMemory

/-! ## The table -/

/-- A row of `employee_memory`, up to its id. -/
structure Row where
  textContent : Str
  summary : Str
  tags : List Str
  importance : ℚ
  source : Str
  permanent : Bool
  reviewAfterDays : ℕ
  contentHash : Str
  embedding : Option (List ℚ)
  tokenCount : ℕ
  createdAt : ℤ
  deriving DecidableEq

/-- The arguments of `write_learned_skill`. -/
structure Write where
  text : Str
  tags : List Str
  importance : ℚ := 7 / 10
  source : Str
  permanent : Bool := false
  forceUpdate : Bool := false

/-- What becomes of a transaction; the last with the answer lost. -/
inductive Fate
  | committed | failed | unanswered
  deriving DecidableEq

/-- What a write meets; `now` is the time of the row. -/
structure World where
  fate : Fate
  embedding : Option (List ℚ)
  now : ℤ

variable (md5 : Str → Str)

/-- `hashlib.md5(text[:200].encode()).hexdigest()[:8]`. -/
def contentHash (text : Str) : Str := (md5 (text.take 200)).take 8

/-- The row an `INSERT` would add. -/
def rowOf (w : Write) (e : World) : Row where
  textContent := w.text
  summary := w.text.take 300
  tags := w.tags ++ ["source:".toList ++ w.source]
  importance := if w.permanent then max w.importance (95 / 100) else w.importance
  source := w.source
  permanent := w.permanent || 95 / 100 ≤ w.importance
  reviewAfterDays := if w.permanent then 365 else 180
  contentHash := contentHash md5 w.text
  embedding := e.embedding.filter (· ≠ [])
  tokenCount := (Str.words w.text).length
  createdAt := e.now

/-- The rows under the key of the unique index. -/
def SameKey (r r' : Row) : Prop := r.contentHash = r'.contentHash ∧ r.source = r'.source

instance : DecidableRel SameKey := fun _ _ => inferInstanceAs (Decidable (_ ∧ _))

/-- The rows left by the `DELETE` of `force_update`. -/
def Write.kept (w : Write) (table : List Row) : List Row :=
  if w.forceUpdate then table.filter (·.source ≠ w.source) else table

/-- A text with a null character is no value of the column, so its transaction fails. -/
def writeLearnedSkill (table : List Row) (w : Write) (e : World) : Option Row × List Row :=
  if (Str.strip w.text).length < 10 then (none, table)
  else if e.fate = .failed ∨ Char.ofNat 0 ∈ w.text then (none, table)
  else
    let row := rowOf md5 w e
    -- ON CONFLICT (content_hash, source) DO NOTHING
    if (w.kept table).any fun r => SameKey r row then (none, w.kept table)
    else (if e.fate = .unanswered then none else some row, w.kept table ++ [row])

def ownerSource : Str := "owner".toList
def ownerTag : Str := "owner_instruction".toList

/-- The text an instruction is stored as. -/
def ownerText (instruction : Str) : Str :=
  "OWNER INSTRUCTION (always follow this): ".toList ++ Str.strip instruction

def ownerWrite (instruction : Str) : Write where
  text := ownerText instruction
  tags := [ownerTag, "core".toList, "business".toList]
  importance := 1
  source := ownerSource
  permanent := true

/-- What `auto_learn_from_all` writes, of the text it put together. -/
def autoLearnWrite (learnedText : Str) : Write where
  text := learnedText.take 2000
  tags := ["business".toList, "identity".toList, "auto_learned".toList, "core".toList]
  importance := 95 / 100
  source := "auto_learn".toList
  permanent := true
  forceUpdate := true

/-- `learned` is the text `auto_learn_from_all` puts together, if it gets that far. -/
def learnFromOwnerInstruction (table : List Row) (instruction : Str) (e : World)
    (learned : Option (Str × World)) : List Row :=
  if (Str.strip instruction).length < 10 then table
  else
    let table := (writeLearnedSkill md5 table (ownerWrite instruction) e).2
    match learned with
    | some (text, e') => (writeLearnedSkill md5 table (autoLearnWrite text) e').2
    | none => table

/-- `ORDER BY importance DESC, created_at DESC`. -/
def Before (r r' : Row) : Prop :=
  r'.importance < r.importance ∨ r.importance = r'.importance ∧ r'.createdAt ≤ r.createdAt

instance : DecidableRel Before := fun _ _ => inferInstanceAs (Decidable (_ ∨ _))

/-- `tags ?| array`. -/
def Row.hasAny (r : Row) (tags : List Str) : Bool := r.tags.any (· ∈ tags)

def tagSearch (table : List Row) (tags : List Str) (topK : ℕ) : List Row :=
  if tags = [] then []
  else ((table.filter (·.hasAny tags)).insertionSort Before).take topK

/-- `semantic_search` of a query that was embedded; `distance` is that of a row's embedding. -/
def semanticSearch (distance : List ℚ → ℚ) (table : List Row) (topK : ℕ) (tags : List Str) :
    List Row :=
  let found := table.filter fun r => r.embedding.isSome && (tags = [] || r.hasAny tags)
  (found.insertionSort fun r r' =>
    r.embedding.elim 0 distance ≤ r'.embedding.elim 0 distance).take topK

def getOwnerInstructions (table : List Row) : Str :=
  match tagSearch table [ownerTag] 3 with
  | [] => []
  | rows => "=== OWNER INSTRUCTIONS (obey always) ===\n".toList ++
      ['\n'].intercalate (rows.map (·.textContent.take 300))

/-! ## Histories -/

/-- An instruction with what its writes meet, or a write from another source. -/
inductive Event
  | instruct (instruction : Str) (e : World) (learned : Option (Str × World))
  | write (w : Write) (other : w.source ≠ ownerSource) (e : World)

def step (table : List Row) : Event → List Row
  | .instruct instruction e learned => learnFromOwnerInstruction md5 table instruction e learned
  | .write w _ e => (writeLearnedSkill md5 table w e).2

def after (table : List Row) : List Event → List Row
  | [] => table
  | event :: events => after (step md5 table event) events

/-- The instruction is long enough, and its transaction goes through. -/
def Reaches (instruction : Str) (e : World) : Prop :=
  10 ≤ (Str.strip instruction).length ∧ e.fate ≠ .failed ∧ Char.ofNat 0 ∉ ownerText instruction

instance (instruction : Str) (e : World) : Decidable (Reaches instruction e) :=
  inferInstanceAs (Decidable (_ ∧ _ ∧ _))

/-- An instruction of the history that reaches the table. -/
def Reached (events : List Event) (instruction : Str) : Prop :=
  ∃ e learned, .instruct instruction e learned ∈ events ∧ Reaches instruction e

/-- An instruction of the history. -/
def Given (events : List Event) (instruction : Str) : Prop :=
  ∃ e learned, .instruct instruction e learned ∈ events

/-- A row the owner's instruction is read from. -/
def Stores (table : List Row) (instruction : Str) (r : Row) : Prop :=
  r ∈ table ∧ r.source = ownerSource ∧ ownerTag ∈ r.tags ∧ r.textContent = ownerText instruction

/-! ## One write -/

variable {md5}

/-- A write that goes through: the row comes in unless its key is taken. -/
theorem writeLearnedSkill_of_reaches {w : Write} {e : World}
    (hlen : 10 ≤ (Str.strip w.text).length) (hfate : e.fate ≠ .failed)
    (hnull : Char.ofNat 0 ∉ w.text) (table : List Row) :
    (writeLearnedSkill md5 table w e).2 =
      if ∃ r ∈ w.kept table, SameKey r (rowOf md5 w e) then w.kept table
      else w.kept table ++ [rowOf md5 w e] := by
  have hgoes : ¬ (e.fate = .failed ∨ Char.ofNat 0 ∈ w.text) := by simp [hfate, hnull]
  rw [writeLearnedSkill, if_neg (by omega), if_neg hgoes]
  simp only [List.any_eq_true, decide_eq_true_eq]
  split
  · rfl
  · rfl

/-- A write that does not leaves the table as it is. -/
theorem writeLearnedSkill_of_not {w : Write} {e : World}
    (h : ¬ (10 ≤ (Str.strip w.text).length ∧ e.fate ≠ .failed ∧ Char.ofNat 0 ∉ w.text))
    (table : List Row) : (writeLearnedSkill md5 table w e).2 = table := by
  unfold writeLearnedSkill
  split
  · rfl
  · rename_i hlen
    rw [if_pos]
    by_contra hgoes
    rw [not_or] at hgoes
    exact h ⟨by omega, hgoes⟩

/-- A write from another source leaves the owner's rows as they are. -/
theorem owner_writeLearnedSkill (table : List Row) {w : Write} (hw : w.source ≠ ownerSource)
    (e : World) : (writeLearnedSkill md5 table w e).2.filter (·.source = ownerSource) =
      table.filter (·.source = ownerSource) := by
  have hkept : (w.kept table).filter (·.source = ownerSource) =
      table.filter (·.source = ownerSource) := by
    unfold Write.kept
    split
    · rw [List.filter_filter]
      apply List.filter_congr
      intro r _
      by_cases hr : r.source = ownerSource
      · simp [hr, hw.symm]
      · simp [hr]
    · rfl
  by_cases h : 10 ≤ (Str.strip w.text).length ∧ e.fate ≠ .failed ∧ Char.ofNat 0 ∉ w.text
  · rw [writeLearnedSkill_of_reaches h.1 h.2.1 h.2.2]
    split
    · exact hkept
    · rw [List.filter_append, hkept]
      simp [rowOf, hw]
  · rw [writeLearnedSkill_of_not h]

/-- Trailing white space aside, nothing is stripped behind a last character that is none. -/
theorem length_le_strip {c d : Char} (hc : Str.isSpace c = false) (hd : Str.isSpace d = false)
    (p t : Str) : p.length + 2 ≤ (Str.strip (c :: p ++ d :: t)).length := by
  have hfront : (c :: p ++ d :: t).dropWhile Str.isSpace = c :: p ++ d :: t :=
    List.dropWhile_cons_of_neg (by simp [hc])
  have hlast : ((d :: (c :: p).reverse)).dropWhile Str.isSpace = d :: (c :: p).reverse :=
    List.dropWhile_cons_of_neg (by simp [hd])
  rw [Str.strip, hfront, List.length_reverse, List.reverse_append, List.reverse_cons,
    List.append_assoc, List.singleton_append, List.dropWhile_append]
  split
  · rw [hlast]
    simp
  · simp

/-- The instruction's own check is the only one on its length. -/
theorem le_length_strip_ownerText (instruction : Str) :
    10 ≤ (Str.strip (ownerText instruction)).length := by
  have h := length_le_strip (c := 'O') (d := ':') rfl rfl
    "WNER INSTRUCTION (always follow this)".toList (' ' :: Str.strip instruction)
  refine le_trans ?_ h
  decide

/-! ## The owner's rows -/

/-- The rows the owner's instructions are kept in. -/
def owner (table : List Row) : List Row := table.filter (·.source = ownerSource)

theorem mem_owner {table : List Row} {r : Row} :
    r ∈ owner table ↔ r ∈ table ∧ r.source = ownerSource := by simp [owner]

theorem autoLearn_source (text : Str) : (autoLearnWrite text).source ≠ ownerSource := by
  change "auto_learn".toList ≠ "owner".toList
  decide

/-- What an instruction does to the owner's rows. -/
theorem owner_learn (table : List Row) (x : Str) (e : World) (learned : Option (Str × World)) :
    owner (learnFromOwnerInstruction md5 table x e learned) =
      if Reaches x e ∧ ∀ r ∈ owner table, r.contentHash ≠ contentHash md5 (ownerText x) then
        owner table ++ [rowOf md5 (ownerWrite x) e]
      else owner table := by
  have hauto : ∀ t : List Row, owner (match learned with
      | some (text, e') => (writeLearnedSkill md5 t (autoLearnWrite text) e').2
      | none => t) = owner t := fun t => by
    cases learned with
    | none => rfl
    | some l => exact owner_writeLearnedSkill t (autoLearn_source l.1) l.2
  unfold learnFromOwnerInstruction
  split
  · rename_i hshort
    rw [if_neg fun h => absurd h.1.1 (by omega)]
  · rename_i hlong
    rw [hauto]
    by_cases hreach : Reaches x e
    · have hkept : (ownerWrite x).kept table = table := rfl
      rw [writeLearnedSkill_of_reaches (le_length_strip_ownerText x) hreach.2.1 hreach.2.2, hkept]
      by_cases htaken : ∃ r ∈ table, SameKey r (rowOf md5 (ownerWrite x) e)
      · rw [if_pos htaken, if_neg]
        rintro ⟨-, hfree⟩
        obtain ⟨r, hr, hhash, hsource⟩ := htaken
        exact hfree r (mem_owner.2 ⟨hr, hsource⟩) hhash
      · rw [if_neg htaken, if_pos ⟨hreach, fun r hr hhash => htaken ⟨r, (mem_owner.1 hr).1, hhash,
          (mem_owner.1 hr).2⟩⟩, owner, List.filter_append]
        rfl
    · rw [if_neg fun h => hreach h.1, writeLearnedSkill_of_not]
      rintro ⟨-, hfate, hnull⟩
      exact hreach ⟨by omega, hfate, hnull⟩

variable (md5)

/-- The owner's rows after a history: the first text that reached the table under each hash. -/
structure Kept (events : List Event) (table : List Row) : Prop where
  reached : ∀ r ∈ owner table, ∃ x, Reached events x ∧ r.textContent = ownerText x ∧
    r.contentHash = contentHash md5 (ownerText x) ∧ ownerTag ∈ r.tags
  covered : ∀ x, Reached events x → ∃ r ∈ owner table,
    r.contentHash = contentHash md5 (ownerText x)
  unique : ((owner table).map Row.contentHash).Nodup

variable {md5}

namespace Kept

variable {events : List Event} {table : List Row}

theorem nil : Kept md5 [] [] := by
  refine ⟨by simp [owner], ?_, by simp [owner]⟩
  rintro x ⟨e, learned, hmem, -⟩
  cases hmem

/-- An event after which the owner's rows are the same, and that reaches the table under a hash
that is taken if at all. -/
theorem same {event : Event} {table' : List Row} (h : Kept md5 events table)
    (hsame : owner table' = owner table)
    (hold : ∀ x e learned, event = .instruct x e learned → Reaches x e →
      ∃ r ∈ owner table, r.contentHash = contentHash md5 (ownerText x)) :
    Kept md5 (events ++ [event]) table' := by
  constructor
  · rw [hsame]
    intro r hr
    obtain ⟨x, ⟨e, learned, hmem, hreach⟩, hrest⟩ := h.reached r hr
    exact ⟨x, ⟨e, learned, List.mem_append_left _ hmem, hreach⟩, hrest⟩
  · rw [hsame]
    rintro x ⟨e, learned, hmem, hreach⟩
    rcases List.mem_append.1 hmem with hmem | hmem
    · exact h.covered x ⟨e, learned, hmem, hreach⟩
    · exact hold x e learned (List.mem_singleton.1 hmem).symm hreach
  · rw [hsame]
    exact h.unique

/-- **Every event keeps the first text under each hash.** -/
theorem step (h : Kept md5 events table) (event : Event) :
    Kept md5 (events ++ [event]) (EmployeeMemory.step md5 table event) := by
  cases event with
  | write w hw e =>
    refine h.same (owner_writeLearnedSkill table hw e) fun x e learned heq _ => ?_
    cases heq
  | instruct x e learned =>
    have howner := @owner_learn md5 table x e learned
    by_cases hnew : Reaches x e ∧ ∀ r ∈ owner table, r.contentHash ≠ contentHash md5 (ownerText x)
    · rw [if_pos hnew] at howner
      obtain ⟨hreach, hfree⟩ := hnew
      have hself : Reached (events ++ [.instruct x e learned]) x :=
        ⟨e, learned, by simp, hreach⟩
      constructor
      · rw [EmployeeMemory.step, howner]
        intro r hr
        rcases List.mem_append.1 hr with hr | hr
        · obtain ⟨y, ⟨e', learned', hmem, hy⟩, hrest⟩ := h.reached r hr
          exact ⟨y, ⟨e', learned', List.mem_append_left _ hmem, hy⟩, hrest⟩
        · rw [List.mem_singleton.1 hr]
          exact ⟨x, hself, rfl, rfl, List.mem_cons_self⟩
      · rw [EmployeeMemory.step, howner]
        rintro y ⟨e', learned', hmem, hy⟩
        rcases List.mem_append.1 hmem with hmem | hmem
        · obtain ⟨r, hr, hhash⟩ := h.covered y ⟨e', learned', hmem, hy⟩
          exact ⟨r, List.mem_append_left _ hr, hhash⟩
        · cases List.mem_singleton.1 hmem
          exact ⟨_, List.mem_append_right _ (List.mem_singleton_self _), rfl⟩
      · rw [EmployeeMemory.step, howner, List.map_append, List.nodup_append]
        refine ⟨h.unique, by simp, fun a ha b hb hab => ?_⟩
        obtain ⟨r, hr, rfl⟩ := List.mem_map.1 ha
        exact hfree r hr (hab.trans (List.mem_singleton.1 hb))
    · rw [if_neg hnew] at howner
      refine h.same howner fun y e' learned' heq hy => ?_
      cases heq
      by_contra hnone
      exact hnew ⟨hy, fun r hr hhash => hnone ⟨r, hr, hhash⟩⟩

theorem after (h : Kept md5 events table) (events' : List Event) :
    Kept md5 (events ++ events') (EmployeeMemory.after md5 table events') := by
  induction events' generalizing events table with
  | nil => simpa [EmployeeMemory.after] using h
  | cons event events' ih => simpa [EmployeeMemory.after] using ih (h.step event)

/-- The instruction whose text is kept under a hash is the one that is stored. -/
theorem stores_iff (h : Kept md5 events table) (x : Str) :
    (∃ r, Stores table x r) ↔ ∃ y, Reached events y ∧ ownerText y = ownerText x ∧
      ∃ r ∈ owner table, r.contentHash = contentHash md5 (ownerText x) ∧
        r.textContent = ownerText x := by
  constructor
  · rintro ⟨r, hr, hsource, -, htext⟩
    have howner := mem_owner.2 ⟨hr, hsource⟩
    obtain ⟨y, hy, hy', hhash, -⟩ := h.reached r howner
    rw [htext] at hy'
    exact ⟨y, hy, hy'.symm, r, howner, hhash.trans (by rw [hy']), htext⟩
  · rintro ⟨y, -, -, r, hr, -, htext⟩
    obtain ⟨-, -, -, -, htag⟩ := h.reached r hr
    exact ⟨r, (mem_owner.1 hr).1, (mem_owner.1 hr).2, htag, htext⟩

/-- Two instructions that are both stored have different hashes or the same text. -/
theorem eq_of_stores (h : Kept md5 events table) {x y : Str} (hx : ∃ r, Stores table x r)
    (hy : ∃ r, Stores table y r)
    (hhash : contentHash md5 (ownerText x) = contentHash md5 (ownerText y)) :
    ownerText x = ownerText y := by
  obtain ⟨-, -, -, r, hr, hrx, htx⟩ := (h.stores_iff x).1 hx
  obtain ⟨-, -, -, r', hr', hry, hty⟩ := (h.stores_iff y).1 hy
  have hsame : r = r' := List.inj_on_of_nodup_map h.unique hr hr' (by rw [hrx, hry, hhash])
  rw [← htx, ← hty, hsame]

end Kept

/-! ## What the searches find -/

theorem mem_take_or_full {α : Type} {l : List α} {a : α} (h : a ∈ l) (n : ℕ) :
    a ∈ l.take n ∨ (l.take n).length = n := by
  rcases Nat.lt_or_ge n l.length with hlt | hle
  · exact .inr (by rw [List.length_take]; omega)
  · exact .inl (by rwa [List.take_of_length_le hle])

/-- A row with one of the tags is found unless as many rows as were asked for come before it. -/
theorem mem_tagSearch_or_full {table : List Row} {r : Row} (hr : r ∈ table) {tags : List Str}
    {t : Str} (ht : t ∈ tags) (hrt : t ∈ r.tags) (topK : ℕ) :
    r ∈ tagSearch table tags topK ∨ (tagSearch table tags topK).length = topK := by
  have hany : r.hasAny tags = true := List.any_eq_true.2 ⟨t, hrt, decide_eq_true ht⟩
  rw [tagSearch, if_neg (List.ne_nil_of_mem ht)]
  apply mem_take_or_full
  rw [List.mem_insertionSort, List.mem_filter]
  exact ⟨hr, hany⟩

/-- So is a row with an embedding, by its meaning. -/
theorem mem_semanticSearch_or_full (distance : List ℚ → ℚ) {table : List Row} {r : Row}
    (hr : r ∈ table) (he : r.embedding ≠ none) {tags : List Str} {t : Str} (ht : t ∈ tags)
    (hrt : t ∈ r.tags) (topK : ℕ) :
    r ∈ semanticSearch distance table topK tags ∨
      (semanticSearch distance table topK tags).length = topK := by
  have hany : r.hasAny tags = true := List.any_eq_true.2 ⟨t, hrt, decide_eq_true ht⟩
  apply mem_take_or_full
  rw [List.mem_insertionSort, List.mem_filter]
  exact ⟨hr, by simp [Option.isSome_iff_ne_none, he, hany]⟩

theorem infix_intercalate {sep x : Str} {l : List Str} (h : x ∈ l) :
    x <:+: sep.intercalate l := by
  induction l with
  | nil => cases h
  | cons y l ih =>
    cases l with
    | nil =>
      rw [List.mem_singleton.1 h, List.intercalate_singleton]
    | cons z l =>
      rw [List.intercalate_cons_cons]
      rcases List.mem_cons.1 h with rfl | h
      · rw [List.append_assoc]
        exact (List.prefix_append x _).isInfix
      · exact (ih h).trans (List.suffix_append _ _).isInfix

/-- The prompt holds the first 300 characters of what the search gives. -/
theorem infix_getOwnerInstructions {table : List Row} {r : Row}
    (h : r ∈ tagSearch table [ownerTag] 3) :
    r.textContent.take 300 <:+: getOwnerInstructions table := by
  have hinfix : r.textContent.take 300 <:+:
      ['\n'].intercalate ((tagSearch table [ownerTag] 3).map (·.textContent.take 300)) :=
    infix_intercalate (List.mem_map_of_mem h)
  unfold getOwnerInstructions
  split
  · rename_i hnil
    rw [hnil] at h
    cases h
  · exact hinfix.trans (List.suffix_append _ _).isInfix

/-- A row of the instruction is there, and what is searched for finds it, up to the limits. -/
def Found (table : List Row) (x : Str) : Prop :=
  ∃ r, Stores table x r ∧
    (∀ topK, r ∈ tagSearch table [ownerTag] topK ∨
      (tagSearch table [ownerTag] topK).length = topK) ∧
    (r ∈ tagSearch table [ownerTag] 3 → r.textContent.take 300 <:+: getOwnerInstructions table) ∧
    (r.embedding ≠ none → ∀ distance topK, r ∈ semanticSearch distance table topK [ownerTag] ∨
      (semanticSearch distance table topK [ownerTag]).length = topK)

theorem found_iff (table : List Row) (x : Str) : Found table x ↔ ∃ r, Stores table x r := by
  constructor
  · rintro ⟨r, hr, -⟩
    exact ⟨r, hr⟩
  · rintro ⟨r, hr⟩
    have htag := hr.2.2.1
    refine ⟨r, hr, mem_tagSearch_or_full hr.1 (List.mem_singleton_self _) htag,
      infix_getOwnerInstructions, fun he distance => ?_⟩
    exact mem_semanticSearch_or_full distance hr.1 he (List.mem_singleton_self _) htag

/-- **Every instruction of a history is stored and found exactly where each of them reaches the
table, by itself or as another one with the same text, and no two that reach it share a hash
without having the same text.** -/
theorem instructions_stored_iff (md5 : Str → Str) (events : List Event) :
    (∀ x, Given events x → Found (after md5 [] events) x) ↔
      (∀ x, Given events x → ∃ y, Reached events y ∧ ownerText y = ownerText x) ∧
      ∀ x y, Reached events x → Reached events y →
        contentHash md5 (ownerText x) = contentHash md5 (ownerText y) →
        ownerText x = ownerText y := by
  have hkept : Kept md5 events (after md5 [] events) := Kept.nil.after events
  simp only [found_iff]
  constructor
  · intro h
    have hgiven : ∀ x, Reached events x → Given events x := fun x ⟨e, learned, hmem, _⟩ =>
      ⟨e, learned, hmem⟩
    constructor
    · intro x hx
      obtain ⟨y, hy, htext, -⟩ := (hkept.stores_iff x).1 (h x hx)
      exact ⟨y, hy, htext⟩
    · intro x y hx hy hhash
      exact hkept.eq_of_stores (h x (hgiven x hx)) (h y (hgiven y hy)) hhash
  · rintro ⟨hreach, hinj⟩ x hx
    obtain ⟨y, hy, htext⟩ := hreach x hx
    rw [hkept.stores_iff]
    obtain ⟨r, hr, hhash⟩ := hkept.covered y hy
    obtain ⟨z, hz, htextz, hhashz, -⟩ := hkept.reached r hr
    have hzy : ownerText z = ownerText y := hinj z y hz hy (hhashz.symm.trans hhash)
    exact ⟨y, hy, htext, r, hr, hhash.trans (by rw [htext]), by rw [htextz, hzy, htext]⟩

/-! ## Two instructions with one beginning -/

def instruction (c : Char) : Str := List.replicate 160 'a' ++ [c]

def told (c : Char) : Event := .instruct (instruction c) ⟨.committed, none, 0⟩ none

/-- The second of two instructions that differ from the 161st character on is dropped, whatever
the hash. -/
theorem second_instruction_dropped :
    ¬ ∃ md5, ∀ x, Given [told '1', told '2'] x → Found (after md5 [] [told '1', told '2']) x := by
  rintro ⟨md5, h⟩
  have hkept : Kept md5 [told '1', told '2'] (after md5 [] [told '1', told '2']) :=
    Kept.nil.after _
  have hgiven : ∀ c ∈ ['1', '2'], Given [told '1', told '2'] (instruction c) := by
    intro c hc
    refine ⟨⟨.committed, none, 0⟩, none, ?_⟩
    rcases List.mem_pair.1 hc with rfl | rfl
    · exact List.mem_cons_self
    · exact List.mem_cons_of_mem _ List.mem_cons_self
  have hfirst := (found_iff _ _).1 (h _ (hgiven '1' (by decide)))
  have hsecond := (found_iff _ _).1 (h _ (hgiven '2' (by decide)))
  have hcut : (ownerText (instruction '1')).take 200 = (ownerText (instruction '2')).take 200 := by
    decide +kernel
  have htext := hkept.eq_of_stores hfirst hsecond (by rw [contentHash, hcut, contentHash])
  exact absurd htext (by decide +kernel)

end RagLeap.EmployeeMemory
