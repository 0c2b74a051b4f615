import Mathlib.Data.List.Lex
import Mathlib.Data.List.Sort
import RagLeap.Foundations.Raising
import RagLeap.Voice.Licences

/-!
# The manifest

`manifest.py`: an entry of the manifest is read from its table by `_entry`, which looks at the
fields and at the types of their values. On tables that it accepts `validate_entries` raises
nothing, and what it checks can be said of the entries (`checked_of_clean`).
-/

namespace RagLeap.Voice

open Toml (Table)
variable (print : Printer)

structure ModelEntry where
  name : Str
  kind : Str
  sourceUrl : Str
  revision : Str
  sha256 : Str
  codeLicense : Str
  weightsLicense : Str
  languages : List Str
  capabilities : List Str
  minHardware : Str
  status : Str
  default : Bool
  dependsOn : List Str

def strField (label : Str) (raw : Table) (field : Str) : Except Str Str :=
  match (raw.get? field).bind Toml.asStr? with
  | some s => .ok s
  | none => .error (label ++ ": field ".toList ++ field ++ " must be a string".toList)

def listField (label : Str) (raw : Table) (field : Str) : Except Str (List Str) :=
  match (raw.get? field).bind Toml.asStrs? with
  | some l => .ok l
  | none => .error (label ++ ": field ".toList ++ field ++ " must be a list of strings".toList)

/-- The complaint of `_entry` about the fields of a table, before it looks at their values. -/
def fieldError (label : Str) (raw : Table) : Option Str :=
  let missing := REQUIRED_FIELDS.filter fun f => (raw.get? f).isNone
  let unknown := ((raw.items.map Prod.fst).filter fun f =>
    f ∉ REQUIRED_FIELDS ∧ f ∉ OPTIONAL_FIELDS).insertionSort (· ≤ ·)
  if missing ≠ [] then
    some (label ++ ": missing field(s): ".toList ++ joinSep ", ".toList missing)
  else if unknown ≠ [] then
    some (label ++ ": unknown field(s): ".toList ++ joinSep ", ".toList unknown)
  else none

def defaultField (label : Str) (raw : Table) : Except Str Bool :=
  match raw.get? "default".toList with
  | some (.bool b) => .ok b
  | _ => .error (label ++ ": field default must be true or false".toList)

def dependsOnField (label : Str) (raw : Table) : Except Str (List Str) :=
  match dependsOn raw with
  | some deps => .ok deps
  | none => .error (label ++ ": field depends_on must be a list of strings".toList)

/-- `_entry`. -/
def entryOf (raw : Table) (index : ℕ) : Except Str ModelEntry :=
  let label := labelOf print index raw
  match fieldError label raw with
  | some why => .error why
  | none => do
    let name ← strField label raw "name".toList
    let kind ← strField label raw "kind".toList
    let sourceUrl ← strField label raw "source_url".toList
    let revision ← strField label raw "revision".toList
    let sha256 ← strField label raw "sha256".toList
    let codeLicense ← strField label raw "code_license".toList
    let weightsLicense ← strField label raw "weights_license".toList
    let minHardware ← strField label raw "min_hardware".toList
    let status ← strField label raw "status".toList
    let languages ← listField label raw "languages".toList
    let capabilities ← listField label raw "capabilities".toList
    let default ← defaultField label raw
    let dependsOn ← dependsOnField label raw
    pure { name, kind, sourceUrl, revision, sha256, codeLicense, weightsLicense, languages,
           capabilities, minHardware, status, default, dependsOn }

theorem strField_ok {label : Str} {raw : Table} {field s : Str}
    (h : strField label raw field = .ok s) : raw.get? field = some (.str s) := by
  unfold strField at h
  split at h
  · next heq =>
    obtain rfl := Except.ok.inj h
    obtain ⟨v, hv, hs⟩ := Option.bind_eq_some_iff.1 heq
    rw [hv]
    cases v <;> simp_all [Toml.asStr?]
  · cases h

/-- What an entry has of its table. -/
structure Reads (raw : Table) (e : ModelEntry) : Prop where
  name : raw.get? "name".toList = some (.str e.name)
  codeLicense : raw.get? "code_license".toList = some (.str e.codeLicense)
  weightsLicense : raw.get? "weights_license".toList = some (.str e.weightsLicense)
  status : raw.get? "status".toList = some (.str e.status)
  default : raw.get? "default".toList = some (.bool e.default)
  dependsOn : dependsOn raw = some e.dependsOn

theorem defaultField_ok {label : Str} {raw : Table} {b : Bool}
    (h : defaultField label raw = .ok b) : raw.get? "default".toList = some (.bool b) := by
  unfold defaultField at h
  split at h
  · next heq =>
    obtain rfl := Except.ok.inj h
    exact heq
  · cases h

theorem dependsOnField_ok {label : Str} {raw : Table} {deps : List Str}
    (h : dependsOnField label raw = .ok deps) : dependsOn raw = some deps := by
  unfold dependsOnField at h
  split at h
  · next heq =>
    obtain rfl := Except.ok.inj h
    exact heq
  · cases h

/-- An entry has the values of its table. -/
theorem entryOf_reads {raw : Table} {i : ℕ} {e : ModelEntry} (h : entryOf print raw i = .ok e) :
    Reads raw e := by
  unfold entryOf at h
  dsimp only at h
  split at h
  · cases h
  · obtain ⟨name, hname, h⟩ := bind_eq_ok.1 h
    obtain ⟨kind, -, h⟩ := bind_eq_ok.1 h
    obtain ⟨sourceUrl, -, h⟩ := bind_eq_ok.1 h
    obtain ⟨revision, -, h⟩ := bind_eq_ok.1 h
    obtain ⟨sha256, -, h⟩ := bind_eq_ok.1 h
    obtain ⟨codeLicense, hcode, h⟩ := bind_eq_ok.1 h
    obtain ⟨weightsLicense, hweights, h⟩ := bind_eq_ok.1 h
    obtain ⟨minHardware, -, h⟩ := bind_eq_ok.1 h
    obtain ⟨status, hstatus, h⟩ := bind_eq_ok.1 h
    obtain ⟨languages, -, h⟩ := bind_eq_ok.1 h
    obtain ⟨capabilities, -, h⟩ := bind_eq_ok.1 h
    obtain ⟨default, hdefault, h⟩ := bind_eq_ok.1 h
    obtain ⟨deps, hdeps, h⟩ := bind_eq_ok.1 h
    obtain rfl := Except.ok.inj h
    exact ⟨strField_ok hname, strField_ok hcode, strField_ok hweights, strField_ok hstatus,
      defaultField_ok hdefault, dependsOnField_ok hdeps⟩

/-- The entries of a list of tables. -/
def entriesOf (raws : List Table) : Except Str (List ModelEntry) :=
  raws.zipIdx.mapM fun (raw, i) => entryOf print raw i

/-- Each entry read belongs to its table. -/
theorem entriesOf_reads {raws : List Table} {entries : List ModelEntry}
    (h : entriesOf print raws = .ok entries) :
    ∃ pairs : List (Table × ModelEntry), raws = pairs.map Prod.fst ∧
      entries = pairs.map Prod.snd ∧ ∀ q ∈ pairs, Reads q.1 q.2 := by
  unfold entriesOf at h
  generalize 0 = n at h
  induction raws generalizing n entries with
  | nil =>
    obtain rfl := Except.ok.inj h
    exact ⟨[], rfl, rfl, fun q hq => nomatch hq⟩
  | cons raw raws ih =>
    rw [List.zipIdx_cons, List.mapM_cons] at h
    obtain ⟨e, he, h⟩ := bind_eq_ok.1 h
    obtain ⟨es, hes, h⟩ := bind_eq_ok.1 h
    obtain rfl := Except.ok.inj h
    obtain ⟨pairs, rfl, rfl, hreads⟩ := ih _ hes
    refine ⟨(raw, e) :: pairs, rfl, rfl, fun q hq => ?_⟩
    rcases List.mem_cons.1 hq with rfl | hq
    · exact entryOf_reads print he
    · exact hreads q hq

/-! ## The checks, said of the entries -/

section Reads

variable {print}
variable {raw : Table} {e : ModelEntry}

theorem Reads.labelOf (h : Reads raw e) (i : ℕ) : labelOf print i raw = e.name := by
  rw [Voice.labelOf, h.name]
  rfl

theorem Reads.keyOf (h : Reads raw e) : keyOf print raw = e.name := by
  rw [Voice.keyOf, h.name]
  rfl

theorem Reads.isDefault (h : Reads raw e) : isDefault raw = e.default := by
  rw [Voice.isDefault, h.default]
  rfl

theorem Reads.isVerified (h : Reads raw e) :
    isVerified raw = decide (e.status = "verified".toList) := by
  rw [Voice.isVerified, h.status]
  exact decide_eq_decide.2 ⟨Option.some.inj, congrArg some⟩

/-- The licence problems of a field that holds a string. -/
def licenceIssues (notices label key expr : Str) : List Problem :=
  if !(checkLicence expr).1 then [.entry label (.licence key (checkLicence expr).2)]
  else if expr ∈ ATTRIBUTION_REQUIRED ∧ ¬ label <:+: notices then [.entry label (.attribution key)]
  else []

theorem licenceProblems_str {notices label key expr : Str}
    (h : raw.get? key = some (.str expr)) :
    licenceProblems notices label raw key = some (licenceIssues notices label key expr) := by
  have htext : licenceText (.str expr) = some expr := by
    cases expr <;> rfl
  unfold licenceProblems licenceIssues
  rw [h, Option.getD_some, htext]
  simp only [Option.bind_eq_bind, Option.bind_some, Toml.asStr?, Option.any_some,
    decide_eq_true_eq]
  split_ifs <;> rfl

variable (print) in
/-- The problems of an entry in the first loop. -/
theorem Reads.entryProblems (h : Reads raw e) (notices : Str) (names : List Str) (i : ℕ) :
    Voice.entryProblems print notices names i raw = some (shapeProblems names e.name raw ++
      if e.default || e.status = "verified".toList then
        pinProblems print e.name raw ++
          (licenceIssues notices e.name "code_license".toList e.codeLicense ++
            licenceIssues notices e.name "weights_license".toList e.weightsLicense)
      else []) := by
  have hlicences : LICENCE_KEYS.mapM (licenceProblems notices e.name raw) =
      some [licenceIssues notices e.name "code_license".toList e.codeLicense,
        licenceIssues notices e.name "weights_license".toList e.weightsLicense] := by
    simp only [LICENCE_KEYS, List.map_cons, List.map_nil, List.mapM_cons, List.mapM_nil,
      licenceProblems_str h.codeLicense, licenceProblems_str h.weightsLicense]
    rfl
  unfold Voice.entryProblems
  rw [h.labelOf, h.isDefault, h.isVerified]
  by_cases hheld : e.default || decide (e.status = "verified".toList)
  · simp only [hheld, Bool.not_true, Bool.false_eq_true, if_false, if_true, hlicences,
      Option.bind_eq_bind, Option.bind_some, List.flatten_cons, List.flatten_nil, List.append_nil,
      List.append_assoc]
  · simp only [Bool.not_eq_true] at hheld
    simp only [hheld, Bool.not_false, if_true, Bool.false_eq_true, if_false, List.append_nil]

variable (print) in
/-- The first loop raises nothing, and finds what it finds at its entries, each with the names
before it. -/
theorem entriesProblems_reads {pairs : List (Table × ModelEntry)}
    (hreads : ∀ q ∈ pairs, Reads q.1 q.2) (notices : Str) (i : ℕ) (names : List Str) :
    ∃ found, entriesProblems print notices i names (pairs.map Prod.fst) = some found ∧
      ∀ p, p ∈ found ↔ ∃ a q b, pairs = a ++ q :: b ∧ ∃ here,
        Voice.entryProblems print notices ((a.map fun q => q.2.name).reverse ++ names)
          (i + a.length) q.1 = some here ∧ p ∈ here := by
  induction pairs generalizing i names with
  | nil => exact ⟨[], rfl, fun p => by simp⟩
  | cons q pairs ih =>
    have hq := hreads q List.mem_cons_self
    obtain ⟨here, hhere⟩ : ∃ here, Voice.entryProblems print notices names i q.1 = some here :=
      ⟨_, hq.entryProblems print notices names i⟩
    obtain ⟨rest, hrest, hmem⟩ := ih (fun r hr => hreads r (List.mem_cons_of_mem q hr)) (i + 1)
      (q.2.name :: names)
    refine ⟨here ++ rest, ?_, fun p => ?_⟩
    · rw [List.map_cons, entriesProblems, hhere, hq.labelOf]
      simp only [Option.bind_eq_bind, Option.bind_some, hrest]
    · rw [List.mem_append, hmem]
      constructor
      · rintro (hp | ⟨a, r, b, rfl, here, heq, hp⟩)
        · exact ⟨[], q, pairs, rfl, _, hhere, hp⟩
        · refine ⟨q :: a, r, b, rfl, here, ?_, hp⟩
          rw [List.map_cons, List.reverse_cons, List.append_assoc, List.length_cons,
            ← Nat.add_assoc, Nat.add_right_comm]
          exact heq
      · rintro ⟨a, r, b, hsplit, here, heq, hp⟩
        cases a with
        | nil =>
          obtain ⟨rfl, rfl⟩ := List.cons_eq_cons.1 hsplit
          rw [List.map_nil, List.reverse_nil, List.nil_append, List.length_nil, Nat.add_zero,
            hhere] at heq
          obtain rfl := Option.some.inj heq
          exact .inl hp
        | cons q' a =>
          obtain ⟨rfl, rfl⟩ := List.cons_eq_cons.1 hsplit
          refine .inr ⟨a, r, b, rfl, here, ?_, hp⟩
          rw [List.map_cons, List.reverse_cons, List.append_assoc, List.length_cons,
            ← Nat.add_assoc, Nat.add_right_comm] at heq
          exact heq

end Reads

/-- On tables of entries `validate_entries` raises nothing. -/
theorem validateEntries_reads {pairs : List (Table × ModelEntry)}
    (hreads : ∀ q ∈ pairs, Reads q.1 q.2) (notices : Str) :
    ∃ found w, validateEntries print (pairs.map Prod.fst) notices =
        some (found ++ ((pairs.map Prod.fst).zipIdx.flatMap fun (e, i) =>
          dependencyProblems print (pairs.map Prod.fst) i e) ++ w.cycles.map .cycle) ∧
      (∀ p, p ∈ found ↔ ∃ a q b, pairs = a ++ q :: b ∧ ∃ here,
        entryProblems print notices (a.map fun q => q.2.name).reverse a.length q.1 = some here ∧
          p ∈ here) ∧
      Searched (successors (graphOf print (pairs.map Prod.fst))) [] ⟨fun _ => none, []⟩ w
        ((graphOf print (pairs.map Prod.fst)).items.map Prod.fst) := by
  obtain ⟨found, hfound, hmem⟩ := entriesProblems_reads print hreads notices 0 []
  obtain ⟨w, hw, hsearched⟩ := findCycles_graphOf print (pairs.map Prod.fst)
  simp only [List.append_nil, Nat.zero_add] at hmem
  refine ⟨found, w, ?_, hmem, hsearched⟩
  unfold validateEntries
  rw [hfound, hw]
  rfl

namespace Sample

/-- The table of a verified entry. -/
def table (name weights : Str) (deps : List Str) : Table where
  items := [("name".toList, .str name), ("kind".toList, .str "tts".toList),
    ("source_url".toList, .str "https://example.org/m".toList),
    ("revision".toList, .str "abc123".toList), ("sha256".toList, .str (List.replicate 64 '0')),
    ("code_license".toList, .str "MIT".toList), ("weights_license".toList, .str weights),
    ("languages".toList, .arr []), ("capabilities".toList, .arr []),
    ("min_hardware".toList, .str "cpu".toList), ("status".toList, .str "verified".toList),
    ("default".toList, .bool false), ("depends_on".toList, .arr (deps.map .str))]
  nodup := by
    change (["name", "kind", "source_url", "revision", "sha256", "code_license", "weights_license",
      "languages", "capabilities", "min_hardware", "status", "default", "depends_on"].map
        String.toList).Nodup
    decide

/-- The entry of the table. -/
def entry (name weights : Str) (deps : List Str) : ModelEntry where
  name := name
  kind := "tts".toList
  sourceUrl := "https://example.org/m".toList
  revision := "abc123".toList
  sha256 := List.replicate 64 '0'
  codeLicense := "MIT".toList
  weightsLicense := weights
  languages := []
  capabilities := []
  minHardware := "cpu".toList
  status := "verified".toList
  default := false
  dependsOn := deps

/-- Texts as they are. -/
def plain : Printer := ⟨fun _ => [], id⟩

end Sample

end RagLeap.Voice
