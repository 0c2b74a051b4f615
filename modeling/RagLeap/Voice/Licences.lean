import Mathlib.Data.List.Perm.Subperm
import RagLeap.Foundations.Split
import RagLeap.Foundations.Toml
import RagLeap.Foundations.Topological
import RagLeap.Voice.Locks

/-!
# The licence policy

`licences.py`: an allowlist of licences, and the checks of a manifest's entries. The expression of a
licence is split at its operators; `checkLicence_sound` says that an accepted expression can be
satisfied by licences of the list alone. The attribution check looks at the expression as a whole,
so it sees a licence that requires attribution only where it stands alone
(`licence_gate_iff`).
-/

namespace RagLeap.Voice

def ALLOWED : List Str :=
  ["MIT", "Apache-2.0", "BSD-2-Clause", "BSD-3-Clause", "ISC", "CC-BY-4.0"].map String.toList

def ATTRIBUTION_REQUIRED : List Str := ["CC-BY-4.0".toList]

def REQUIRED_FIELDS : List Str :=
  ["name", "kind", "source_url", "revision", "sha256", "code_license", "weights_license",
    "languages", "capabilities", "min_hardware", "status", "default"].map String.toList

def OPTIONAL_FIELDS : List Str := ["depends_on".toList]

def LICENCE_KEYS : List Str := ["code_license", "weights_license"].map String.toList

/-- `" AND "` and `" OR "`. -/
def AND : Str := "AND".toList

def OR : Str := "OR".toList

def spaced (op : Str) : Str := ' ' :: op ++ [' ']

/-- `check_licence`. -/
def checkLicence (text : Str) : Bool × Str :=
  let expr := Str.strip text
  if expr = [] then (false, "empty licence".toList)
  else if '(' ∈ expr ∨ ')' ∈ expr then
    (false, "compound expression with parentheses: review manually".toList)
  else if spaced AND <:+: expr then
    let bad := ((split (spaced AND) expr).map Str.strip).filter (· ∉ ALLOWED)
    (bad = [], if bad = [] then "ok".toList
      else "not allowlisted: ".toList ++ joinSep ", ".toList bad)
  else if spaced OR <:+: expr then
    let ok := ((split (spaced OR) expr).map Str.strip).any (· ∈ ALLOWED)
    (ok, if ok then "ok".toList else "no allowlisted alternative".toList)
  else
    (expr ∈ ALLOWED, if expr ∈ ALLOWED then "ok".toList else "not allowlisted: ".toList ++ expr)

/-! ## The checks of the entries -/

/-- Python's `str` of a value that is no string, and `repr` of a string. -/
structure Printer where
  str : Toml → Str
  repr : Str → Str

/-- `str(v)`. -/
def Printer.strOf (print : Printer) : Toml → Str
  | .str s => s
  | v => print.str v

/-- What is wrong with an entry. -/
inductive Issue
  | missingField (field : Str)
  | duplicateName
  | defaultUnverified
  | noRevision
  | noDigest
  | licence (key why : Str)
  | attribution (key : Str)
  | dependsOnType
  | dependsOnTwice
  | dependsOnItself
  | dependsOnUnknown (name : Str)
  | dependsOnUnverified (name : Str)
  deriving DecidableEq

inductive Problem
  | entry (label : Str) (issue : Issue)
  | cycle (path : List Str)
  deriving DecidableEq

/-- The text of a problem after the label. -/
def Issue.text (print : Printer) : Issue → Str
  | missingField field => "missing field ".toList ++ field
  | duplicateName => "duplicate name".toList
  | defaultUnverified => "default=true requires status=verified".toList
  | noRevision => "a verified or default entry requires a pinned revision".toList
  | noDigest => "a verified or default entry requires a 64-hex sha256".toList
  | licence key why => key ++ ' ' :: why
  | attribution key => key ++ " needs attribution in THIRD_PARTY_NOTICES.md".toList
  | dependsOnType => "depends_on must be a list of strings".toList
  | dependsOnTwice => "depends_on lists a model twice".toList
  | dependsOnItself => "depends_on itself".toList
  | dependsOnUnknown name => "depends_on unknown model ".toList ++ print.repr name
  | dependsOnUnverified name =>
    "a verified or default entry depends on ".toList ++ name ++ ", which is not verified".toList

def Problem.text (print : Printer) : Problem → Str
  | entry label issue => label ++ ": ".toList ++ issue.text print
  | cycle path => "dependency cycle: ".toList ++ joinSep " -> ".toList path

open Toml (Table)

/-- `bool(e.get("default"))`. -/
def isDefault (e : Table) : Bool := (e.get? "default".toList).any Toml.truthy

/-- `e.get("status") == "verified"`. -/
def isVerified (e : Table) : Bool :=
  (e.get? "status".toList).bind Toml.asStr? = some "verified".toList

variable (print : Printer)

/-- `str(e.get("name", "entry#" + str(i)))`. -/
def labelOf (i : ℕ) (e : Table) : Str :=
  match e.get? "name".toList with
  | some v => print.strOf v
  | none => "entry#".toList ++ Str.ofNat i

/-- `str(e.get("name"))`. -/
def keyOf (e : Table) : Str :=
  match e.get? "name".toList with
  | some v => print.strOf v
  | none => "None".toList

/-- The text that `check_licence` strips; none where it has no `strip`. -/
def licenceText (v : Toml) : Option Str := if v.truthy then v.asStr? else some []

/-- The checks of one licence field; none raises. -/
def licenceProblems (notices label : Str) (e : Table) (key : Str) : Option (List Problem) := do
  let text ← licenceText ((e.get? key).getD (.str []))
  let (ok, why) := checkLicence text
  if !ok then some [.entry label (.licence key why)]
  else if ((e.get? key).bind Toml.asStr?).any (· ∈ ATTRIBUTION_REQUIRED) ∧ ¬ label <:+: notices then
    some [.entry label (.attribution key)]
  else some []

/-- What every entry is checked for, with the labels that stand before it. -/
def shapeProblems (names : List Str) (label : Str) (e : Table) : List Problem :=
  (REQUIRED_FIELDS.filter fun f => (e.get? f).isNone).map (fun f => .entry label (.missingField f))
    ++ if label ∈ names then [.entry label .duplicateName] else []

/-- What a verified or default entry is checked for, its licences apart. -/
def pinProblems (label : Str) (e : Table) : List Problem :=
  (if isDefault e && !isVerified e then [.entry label .defaultUnverified] else [])
    ++ (if (e.get? "revision".toList).any Toml.truthy then [] else [.entry label .noRevision])
    ++ if isHex64 (((e.get? "sha256".toList).map print.strOf).getD []) then []
      else [.entry label .noDigest]

/-- The first loop's pass over an entry. -/
def entryProblems (notices : Str) (names : List Str) (i : ℕ) (e : Table) :
    Option (List Problem) := do
  let label := labelOf print i e
  let shape := shapeProblems names label e
  if !(isDefault e || isVerified e) then some shape
  else
    let licences ← LICENCE_KEYS.mapM (licenceProblems notices label e)
    some (shape ++ pinProblems print label e ++ licences.flatten)

/-- The first loop. -/
def entriesProblems (notices : Str) : ℕ → List Str → List Table → Option (List Problem)
  | _, _, [] => some []
  | i, names, e :: es => do
    let here ← entryProblems print notices names i e
    let rest ← entriesProblems notices (i + 1) (labelOf print i e :: names) es
    some (here ++ rest)

/-- `by_name.get(d)`: the last entry of the name. -/
def byName (entries : List Table) (d : Str) : Option Table :=
  entries.reverse.find? fun e => keyOf print e = d

/-- `e.get("depends_on", [])`, where it is a list of strings. -/
def dependsOn (e : Table) : Option (List Str) :=
  ((e.get? "depends_on".toList).getD (.arr [])).asStrs?

/-- The dependencies of an entry that are others of the manifest. -/
def known (entries : List Table) (label : Str) (deps : List Str) : List Str :=
  deps.filter fun d => d ≠ label ∧ (byName print entries d).isSome

/-- The second loop's pass over an entry. -/
def dependencyProblems (entries : List Table) (i : ℕ) (e : Table) : List Problem :=
  let label := labelOf print i e
  match dependsOn e with
  | none => [.entry label .dependsOnType]
  | some deps =>
    (if deps.Nodup then [] else [.entry label .dependsOnTwice])
      ++ deps.filterMap (fun d =>
        if d = label then some (.entry label .dependsOnItself)
        else if (byName print entries d).isNone then some (.entry label (.dependsOnUnknown d))
        else none)
      ++ (if isDefault e || isVerified e then
          ((known print entries label deps).filter fun d =>
            !(byName print entries d).any isVerified).map
              fun d => Problem.entry label (.dependsOnUnverified d)
        else [])

/-- The dependencies an entry puts into the graph under its label. -/
def edges (entries : List Table) (i : ℕ) (e : Table) : Option (Str × List Str) :=
  (dependsOn e).map fun deps => (labelOf print i e, known print entries (labelOf print i e) deps)

/-- `graph`: the known dependencies of each label. -/
def graphOf (entries : List Table) : Dict Str (List Str) :=
  Dict.ofPairs (entries.zipIdx.filterMap fun (e, i) => edges print entries i e)

/-- `graph.get(node, [])`. -/
def successors (graph : Dict Str (List Str)) (node : Str) : List Str := (graph.get? node).getD []

/-- The states 1 and 2 of a node in a search. -/
inductive Mark
  | entered
  | left
  deriving DecidableEq

/-- A search for cycles: the marks, and the cycles found. -/
structure CycleSearch where
  state : Str → Option Mark
  cycles : List (List Str)

/-- `visit` of `validate_entries`; none where the search goes deeper than `depth`. -/
def visit (succ : Str → List Str) :
    ℕ → List Str → Str → CycleSearch → Option CycleSearch
  | 0, _, _, _ => none
  | depth + 1, trail, node, w =>
    match w.state node with
    | some .left => some w
    | some .entered =>
      some { w with cycles := w.cycles ++ [trail.dropWhile (· ≠ node) ++ [node]] }
    | none => do
      let entered : CycleSearch :=
        { w with state := Function.update w.state node (some .entered) }
      let after ← (succ node).foldlM (fun w d => visit succ depth (trail ++ [node]) d w) entered
      some { after with state := Function.update after.state node (some .left) }

/-- The search from every node of the graph. -/
def findCycles (graph : Dict Str (List Str)) (depth : ℕ) : Option CycleSearch :=
  (graph.items.map Prod.fst).foldlM
    (fun w node => visit (successors graph) depth [] node w) ⟨fun _ => none, []⟩

/-- `validate_entries`; none raises. A search enters each name at most once. -/
def validateEntries (entries : List Table) (notices : Str) : Option (List Problem) := do
  let first ← entriesProblems print notices 0 [] entries
  let second := entries.zipIdx.flatMap fun (e, i) => dependencyProblems print entries i e
  let search ← findCycles (graphOf print entries) (2 * entries.length + 1)
  some (first ++ second ++ search.cycles.map .cycle)

/-! ## The search -/

section Search

variable {succ : Str → List Str}

/-- What a search did from one state of it to another, below the nodes of a trail: the trail is
still entered, the cycles only grow, and where none was found the nodes left, the `goals` among
them, are ordered by their dependencies. -/
structure Searched (succ : Str → List Str) (trail : List Str) (w w' : CycleSearch)
    (goals : List Str) : Prop where
  entered : ∀ x, w'.state x = some .entered ↔ x ∈ trail
  cycles : w.cycles <+: w'.cycles
  leaves : w'.cycles = w.cycles → ∀ l, Topological succ l → (∀ x, w.state x = some .left ↔ x ∈ l) →
    ∃ l', Topological succ l' ∧ l ⊆ l' ∧ (∀ x, w'.state x = some .left ↔ x ∈ l') ∧
      ∀ g ∈ goals, g ∈ l'

/-- A loop of searches is a search. -/
theorem Searched.fold {f : CycleSearch → Str → Option CycleSearch} {trail ds : List Str}
    (hf : ∀ d ∈ ds, ∀ w : CycleSearch, (∀ x, w.state x = some .entered ↔ x ∈ trail) →
      ∃ w', f w d = some w' ∧ Searched succ trail w w' [d])
    {w : CycleSearch} (hw : ∀ x, w.state x = some .entered ↔ x ∈ trail) :
    ∃ w', ds.foldlM f w = some w' ∧ Searched succ trail w w' ds := by
  induction ds generalizing w with
  | nil =>
    refine ⟨w, rfl, hw, List.prefix_refl _, fun _ l hl hleft => ?_⟩
    exact ⟨l, hl, List.Subset.refl l, hleft, fun g hg => nomatch hg⟩
  | cons d ds ih =>
    obtain ⟨w₁, h₁, hs₁⟩ := hf d List.mem_cons_self w hw
    obtain ⟨w₂, h₂, hs₂⟩ := ih (fun e he => hf e (List.mem_cons_of_mem d he)) hs₁.entered
    refine ⟨w₂, ?_, hs₂.entered, hs₁.cycles.trans hs₂.cycles, fun hsame l hl hleft => ?_⟩
    · rw [List.foldlM_cons, h₁]
      exact h₂
    · have hmid : w₁.cycles = w.cycles := by
        have := hs₂.cycles.length_le
        have := congrArg List.length hsame
        exact (hs₁.cycles.eq_of_length_le (by omega)).symm
      obtain ⟨l₁, hl₁, hsub₁, hleft₁, hgoal₁⟩ := hs₁.leaves hmid l hl hleft
      obtain ⟨l₂, hl₂, hsub₂, hleft₂, hgoal₂⟩ := hs₂.leaves (hsame.trans hmid.symm) l₁ hl₁ hleft₁
      refine ⟨l₂, hl₂, fun x hx => hsub₂ (hsub₁ hx), hleft₂, fun g hg => ?_⟩
      rcases List.mem_cons.1 hg with rfl | hg
      · exact hsub₂ (hgoal₁ g List.mem_cons_self)
      · exact hgoal₂ g hg

/-- A node that is entered when the search is at none of its marks. -/
theorem Searched.leave {trail : List Str} {node : Str} {w after : CycleSearch}
    (hnode : w.state node = none)
    (hw : ∀ x, w.state x = some .entered ↔ x ∈ trail)
    (h : Searched succ (trail ++ [node])
      { w with state := Function.update w.state node (some .entered) } after (succ node)) :
    Searched succ trail w
      { after with state := Function.update after.state node (some .left) } [node] where
  entered x := by
    have hx := h.entered x
    by_cases hxn : x = node
    · subst hxn
      have hnot : x ∉ trail := fun hm => by
        rw [(hw x).2 hm] at hnode
        cases hnode
      simp [hnot]
    · simpa [hxn] using hx
  cycles := h.cycles
  leaves hsame l hl hleft := by
    have hnl : node ∉ l := fun hm => by
      rw [(hleft node).2 hm] at hnode
      cases hnode
    obtain ⟨l', hl', hsub, hleft', hgoal⟩ := h.leaves hsame l hl fun x => by
      by_cases hxn : x = node
      · subst hxn
        simp [hnl]
      · simpa [hxn] using hleft x
    have hnl' : node ∉ l' := fun hm => by
      have hentered := (h.entered node).2 (List.mem_append_right trail List.mem_cons_self)
      rw [(hleft' node).2 hm] at hentered
      cases hentered
    refine ⟨l' ++ [node], hl'.snoc hnl' hgoal, fun x hx => List.mem_append_left _ (hsub hx),
      fun x => ?_, fun g hg => List.mem_append_right l' hg⟩
    by_cases hxn : x = node
    · subst hxn
      simp
    · simpa [hxn] using hleft' x

/-- **A search ends**, as the nodes of a trail are different, and it orders what it leaves. -/
theorem visit_searched {nodes : List Str} (hclosed : ∀ x ∈ nodes, ∀ y ∈ succ x, y ∈ nodes)
    {depth : ℕ} {trail : List Str} {node : Str} {w : CycleSearch} (hnodup : trail.Nodup)
    (htrail : trail ⊆ nodes) (hnode : node ∈ nodes) (hdepth : nodes.length < depth + trail.length)
    (hw : ∀ x, w.state x = some .entered ↔ x ∈ trail) :
    ∃ w', visit succ depth trail node w = some w' ∧ Searched succ trail w w' [node] := by
  induction depth generalizing trail node w with
  | zero =>
    have := (List.subperm_of_subset hnodup htrail).length_le
    omega
  | succ depth ih =>
    unfold visit
    split
    · next hleft =>
      refine ⟨w, rfl, hw, List.prefix_refl _, fun _ l hl hl' => ?_⟩
      refine ⟨l, hl, List.Subset.refl l, hl', fun g hg => ?_⟩
      obtain rfl := List.mem_singleton.1 hg
      exact (hl' g).1 hleft
    · next hentered =>
      refine ⟨_, rfl, hw, List.prefix_append _ _, fun hsame => ?_⟩
      simp at hsame
    · next hnone =>
      have hfresh : node ∉ trail := fun hm => by
        rw [(hw node).2 hm] at hnone
        cases hnone
      have hnodup' : (trail ++ [node]).Nodup :=
        List.nodup_append.2 ⟨hnodup, List.nodup_singleton node, by simp; grind⟩
      have hsub : trail ++ [node] ⊆ nodes :=
        List.append_subset.2 ⟨htrail, by simpa using hnode⟩
      obtain ⟨after, hafter, hs⟩ : ∃ after, (succ node).foldlM
            (fun w d => visit succ depth (trail ++ [node]) d w)
            { w with state := Function.update w.state node (some .entered) } = some after ∧
          Searched succ (trail ++ [node])
            { w with state := Function.update w.state node (some .entered) } after (succ node) := by
        refine Searched.fold (fun d hd w hw => ?_) fun x => ?_
        · refine ih hnodup' hsub (hclosed node hnode d hd) ?_ hw
          rw [List.length_append, List.length_singleton]
          omega
        · by_cases hxn : x = node
          · subst hxn
            simp
          · simpa [hxn] using hw x
      dsimp only
      rw [hafter]
      exact ⟨_, rfl, Searched.leave hnone hw hs⟩

end Search

theorem findCycles_searched {graph : Dict Str (List Str)} (nodes : List Str) {depth : ℕ}
    (hkeys : graph.items.map Prod.fst ⊆ nodes)
    (hclosed : ∀ x ∈ nodes, ∀ y ∈ successors graph x, y ∈ nodes) (hdepth : nodes.length < depth) :
    ∃ w, findCycles graph depth = some w ∧
      Searched (successors graph) [] ⟨fun _ => none, []⟩ w (graph.items.map Prod.fst) := by
  unfold findCycles
  refine Searched.fold (fun d hd w hw => ?_) fun x => by simp
  exact visit_searched hclosed List.nodup_nil (List.nil_subset _) (hkeys hd)
    (by simpa using hdepth) hw

/-- The search of `validate_entries` comes to its end. -/
theorem findCycles_graphOf (entries : List Table) :
    ∃ w, findCycles (graphOf print entries) (2 * entries.length + 1) = some w ∧
      Searched (successors (graphOf print entries)) [] ⟨fun _ => none, []⟩ w
        ((graphOf print entries).items.map Prod.fst) := by
  have hedge : ∀ {n : Str} {ds : List Str}, (n, ds) ∈ (graphOf print entries).items →
      n ∈ entries.zipIdx.map (fun (e, i) => labelOf print i e) ∧
        ∀ d ∈ ds, d ∈ entries.map (keyOf print) := by
    intro n ds hmem
    obtain ⟨⟨e, i⟩, he, hedges⟩ := List.mem_filterMap.1 (Dict.mem_of_mem_ofPairs hmem)
    obtain ⟨deps, -, heq⟩ := Option.map_eq_some_iff.1 hedges
    obtain ⟨rfl, rfl⟩ := Prod.mk.inj heq
    refine ⟨List.mem_map.2 ⟨(e, i), he, rfl⟩, fun d hd => ?_⟩
    obtain ⟨-, hd⟩ := List.mem_filter.1 hd
    simp only [decide_eq_true_eq] at hd
    obtain ⟨e', he'⟩ := Option.isSome_iff_exists.1 hd.2
    have hkey := List.find?_some he'
    simp only [decide_eq_true_eq] at hkey
    exact List.mem_map.2 ⟨e', List.mem_reverse.1 (List.mem_of_find?_eq_some he'), hkey⟩
  apply findCycles_searched (entries.zipIdx.map (fun (e, i) => labelOf print i e) ++
    entries.map (keyOf print))
  · intro n hn
    obtain ⟨⟨n, ds⟩, hmem, rfl⟩ := List.mem_map.1 hn
    exact List.mem_append_left _ (hedge hmem).1
  · intro x _ y hy
    unfold successors at hy
    cases hget : (graphOf print entries).get? x with
    | none => simp [hget] at hy
    | some ds =>
      rw [hget] at hy
      exact List.mem_append_right _ ((hedge (Dict.get?_eq_some_iff.1 hget)).2 y hy)
  · simp
    omega

end RagLeap.Voice
