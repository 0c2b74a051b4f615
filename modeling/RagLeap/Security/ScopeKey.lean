import RagLeap.Foundations.Split
import RagLeap.Security.Scope

/-!
# The keys of scopes

A key is a join of the parts that are set, `name=value` each, and `Scope.parse` reads it back: the
names must come in the order of `_FIELDS`, and the tenant must be there. `Scope.narrow` sets parts
that are not set yet.

Reading and writing are inverse to each other (`parse_iff`), so no two scopes share a key; a scope
covers what it is narrowed to (`covers_of_narrow`).
-/

namespace RagLeap.Security

/-- `_FIELDS`. -/
def FIELDS : List Str := "tenant".toList :: fields.map Field.name

/-- The field of a name below the tenant. -/
def fieldOf? (name : Str) : Option Field := fields.find? fun f => f.name = name

/-- `name, sep, value = part.partition("=")`; none without the sign. -/
def partition (part : Str) : Option (Str × Str) :=
  if '=' ∈ part then
    some (part.takeWhile (· ≠ '='), (part.dropWhile (· ≠ '=')).tail)
  else none

namespace Scope

/-- The loop of `parse`; `next` is `last + 1`. -/
def readParts (next : ℕ) (values : List (Str × Str)) : List Str → Option (List (Str × Str))
  | [] => some values
  | part :: parts =>
    match partition part with
    | none => none
    | some (name, value) =>
      if name ∉ FIELDS ∨ FIELDS.idxOf name < next then none
      else readParts (FIELDS.idxOf name + 1) (values ++ [(name, value)]) parts

/-- `Scope(**values)`. -/
def make (tenant : Str) (part : Field → Option Str) : Option Scope :=
  if h : isPart tenant = true ∧ ∀ f ∈ fields, ∀ v ∈ part f, isPart v = true then
    some ⟨tenant, part, h.1, fun f v hv => h.2 f (mem_fields f) v hv⟩
  else none

/-- `parse`. -/
def parse (key : Str) : Option Scope :=
  if key = [] then none
  else
    (readParts 0 [] (split ['/'] key)).bind fun values =>
      (values.lookup "tenant".toList).bind fun tenant =>
        make tenant fun f => values.lookup f.name

/-- The loop of `narrow`. A value is none where the caller passes `None`. -/
def narrowParts (values : Field → Option Str) :
    List (Str × Option Str) → Option (Field → Option Str)
  | [] => some values
  | (name, value) :: parts =>
    match fieldOf? name with
    | none => none
    | some f =>
      if values f ≠ none ∧ values f ≠ value then none
      else narrowParts (Function.update values f value) parts

/-- `narrow`. -/
def narrow (s : Scope) (parts : List (Str × Option Str)) : Option Scope :=
  (narrowParts s.part parts).bind (make s.tenant)

/-! ## Parts -/

theorem make_eq_some {tenant : Str} {part : Field → Option Str} {s : Scope}
    (h : make tenant part = some s) : s.tenant = tenant ∧ s.part = part := by
  rw [make] at h
  split_ifs at h
  obtain rfl := Option.some.inj h
  exact ⟨rfl, rfl⟩

theorem make_self (s : Scope) : make s.tenant s.part = some s := by
  rw [make, dif_pos ⟨s.tenant_ok, fun f _ v hv => s.part_ok f v hv⟩]

theorem not_mem_of_isPart {c : Char} {v : Str} (hc : c = '/' ∨ c = '=') (h : isPart v = true) :
    c ∉ v := by
  intro hmem
  cases v with
  | nil => exact nomatch hmem
  | cons d v =>
    rw [isPart, Bool.and_eq_true, Bool.and_eq_true] at h
    obtain ⟨⟨hd, -⟩, hv⟩ := h
    rcases List.mem_cons.1 hmem with rfl | hmem
    · rcases hc with rfl | rfl <;> exact absurd hd (by decide)
    · have hchar := List.all_eq_true.1 hv c hmem
      rcases hc with rfl | rfl <;> exact absurd hchar (by decide)

theorem partition_append {name : Str} (h : '=' ∉ name) (value : Str) :
    partition (name ++ '=' :: value) = some (name, value) := by
  have hall : ∀ c ∈ name, decide (c ≠ '=') = true := fun c hc =>
    decide_eq_true fun heq => h (heq ▸ hc)
  rw [partition, if_pos (by simp), List.takeWhile_append_of_pos hall,
    List.dropWhile_append_of_pos hall]
  simp

theorem eq_of_partition {part name value : Str} (h : partition part = some (name, value)) :
    part = name ++ '=' :: value := by
  rw [partition] at h
  split_ifs at h with hmem
  obtain ⟨rfl, rfl⟩ := Prod.mk.inj (Option.some.inj h)
  exact (takeWhile_append_tail hmem).symm

/-! ## Lists of parts -/

/-- The part of a name with its value. -/
def entryText (e : Str × Str) : Str := e.1 ++ '=' :: e.2

/-- The value of a name. -/
def value (s : Scope) (name : Str) : Option Str :=
  if name = "tenant".toList then some s.tenant else (fieldOf? name).bind s.part

/-- The parts that are set. -/
def entries (s : Scope) : List (Str × Str) :=
  FIELDS.filterMap fun name => (s.value name).map fun v => (name, v)

theorem nodup_FIELDS : FIELDS.Nodup := by decide

theorem equals_not_mem_FIELDS {name : Str} (h : name ∈ FIELDS) : '=' ∉ name := by
  have hall : FIELDS.all (fun name => '=' ∉ name) = true := by decide
  simpa using List.all_eq_true.1 hall name h

theorem slash_not_mem_FIELDS {name : Str} (h : name ∈ FIELDS) : '/' ∉ name := by
  have hall : FIELDS.all (fun name => '/' ∉ name) = true := by decide
  simpa using List.all_eq_true.1 hall name h

theorem value_tenant (s : Scope) : s.value "tenant".toList = some s.tenant := if_pos rfl

theorem value_name (s : Scope) (f : Field) : s.value f.name = s.part f := by
  cases f <;> rfl

theorem entries_eq (s : Scope) : s.entries = ("tenant".toList, s.tenant) ::
    fields.filterMap fun f => (s.part f).map fun v => (f.name, v) := by
  have hfirst : (s.value "tenant".toList).map (fun v => ("tenant".toList, v)) =
      some ("tenant".toList, s.tenant) := by
    rw [value_tenant, Option.map_some]
  have hcons : (FIELDS.filterMap fun name => (s.value name).map fun v => (name, v)) =
      ("tenant".toList, s.tenant) ::
        (fields.map Field.name).filterMap fun name => (s.value name).map fun v => (name, v) :=
    List.filterMap_cons_some hfirst
  rw [entries, hcons, List.filterMap_map]
  exact congrArg _ (List.filterMap_congr fun f _ => by rw [Function.comp_apply, value_name])

theorem flatMap_part (part : Field → Option Str) (l : List Field) :
    (l.flatMap fun f =>
      match part f with
      | some v => '/' :: f.name ++ '=' :: v
      | none => []) =
      ((l.filterMap fun f => (part f).map fun v => (f.name, v)).map entryText).flatMap
        (['/'] ++ ·) := by
  induction l with
  | nil => rfl
  | cons f l ih =>
    rw [List.flatMap_cons, ih, List.filterMap_cons]
    cases part f with
    | none => rfl
    | some v => rfl

theorem entryText_tenant (v : Str) : entryText ("tenant".toList, v) = "tenant=".toList ++ v := by
  simp [entryText]

theorem key_eq (s : Scope) : s.key = joinSep ['/'] (s.entries.map entryText) := by
  rw [entries_eq, List.map_cons, joinSep_cons_eq_flatMap, entryText_tenant, ← flatMap_part]
  delta key
  rfl

theorem sublist_names (s : Scope) : (s.entries.map Prod.fst).Sublist FIELDS := by
  rw [entries]
  induction FIELDS with
  | nil => exact List.Sublist.slnil
  | cons name names ih =>
    rw [List.filterMap_cons]
    cases s.value name with
    | none => exact ih.cons name
    | some v => exact ih.cons_cons name

theorem lookup_filterMap {l : List Str} {v : Str → Option Str} {name : Str} (h : name ∈ l) :
    (l.filterMap fun name => (v name).map fun w => (name, w)).lookup name = v name := by
  induction l with
  | nil => exact nomatch h
  | cons n l ih =>
    rw [List.filterMap_cons]
    by_cases hn : name = n
    · subst hn
      cases hv : v name with
      | some w => simp
      | none =>
        by_cases hl : name ∈ l
        · exact (ih hl).trans hv
        · refine List.lookup_eq_none_iff.2 fun e he => ?_
          obtain ⟨n', hn', heq⟩ := List.mem_filterMap.1 he
          obtain ⟨w, -, rfl⟩ := Option.map_eq_some_iff.1 heq
          simpa using fun hsame : name = n' => hl (hsame ▸ hn')
    · have hrest := ih ((List.mem_cons.1 h).resolve_left hn)
      cases v n with
      | none => exact hrest
      | some w => rw [Option.map_some, List.lookup_cons, beq_eq_false_iff_ne.2 hn, hrest]

theorem lookup_entries (s : Scope) {name : Str} (h : name ∈ FIELDS) :
    s.entries.lookup name = s.value name := lookup_filterMap h

/-- Entries whose names stand in order are those that are found under the names. -/
theorem filterMap_lookup {l : List Str} {values : List (Str × Str)} (hl : l.Nodup)
    (h : (values.map Prod.fst).Sublist l) :
    (l.filterMap fun name => (values.lookup name).map fun v => (name, v)) = values := by
  induction l generalizing values with
  | nil => simpa using h
  | cons n l ih =>
    rw [List.nodup_cons] at hl
    rw [List.filterMap_cons]
    cases values with
    | nil => simp
    | cons e values =>
      obtain ⟨name, v⟩ := e
      by_cases hname : name = n
      · subst hname
        have hrest := ih hl.2 (List.cons_sublist_cons.1 h)
        rw [List.lookup_cons_self, Option.map_some]
        refine congrArg (_ :: ·) (Eq.trans (List.filterMap_congr fun n' hn' => ?_) hrest)
        have hne : n' ≠ name := fun heq => hl.1 (heq ▸ hn')
        rw [List.lookup_cons, beq_eq_false_iff_ne.2 hne]
      · have hsub : (((name, v) :: values).map Prod.fst).Sublist l := by
          rcases List.sublist_cons_iff.1 h with hsub | ⟨r, hr, -⟩
          · exact hsub
          · exact absurd (List.cons_eq_cons.1 hr).1 hname
        have hnone : ((name, v) :: values).lookup n = none :=
          List.lookup_eq_none_iff.2 fun e he => by
            have hmem := hsub.subset (List.mem_map_of_mem he)
            simpa using fun heq : n = e.1 => hl.1 (heq ▸ hmem)
        rw [hnone, Option.map_none, ih hl.2 hsub]

/-! ## Reading -/

theorem readParts_spec {parts : List Str} {next : ℕ} {values values' : List (Str × Str)}
    (h : readParts next values parts = some values') :
    ∃ es, values' = values ++ es ∧ parts = es.map entryText ∧
      (es.map Prod.fst).Sublist (FIELDS.drop next) := by
  induction parts generalizing next values with
  | nil =>
    obtain rfl := Option.some.inj h
    exact ⟨[], (List.append_nil values).symm, rfl, List.nil_sublist _⟩
  | cons part parts ih =>
    rw [readParts] at h
    cases hpart : partition part with
    | none =>
      rw [hpart] at h
      exact nomatch h
    | some e =>
      obtain ⟨name, value⟩ := e
      rw [hpart] at h
      dsimp only at h
      split_ifs at h with hbad
      rw [not_or, not_not, Nat.not_lt] at hbad
      obtain ⟨hname, hnext⟩ := hbad
      obtain ⟨es, rfl, rfl, hsub⟩ := ih h
      refine ⟨(name, value) :: es, by simp, ?_, ?_⟩
      · rw [List.map_cons, eq_of_partition hpart]
        rfl
      · have hlt := List.idxOf_lt_length_of_mem hname
        have hdrop : FIELDS.drop (FIELDS.idxOf name) =
            name :: FIELDS.drop (FIELDS.idxOf name + 1) := by
          rw [List.drop_eq_getElem_cons hlt, List.getElem_idxOf]
        rw [List.map_cons]
        refine (hsub.cons_cons name).trans ?_
        rw [← hdrop]
        exact List.drop_sublist_drop_left FIELDS hnext

/-- In a list without repetitions an entry stands where it is found. -/
theorem idxOf_of_nodup {p q : List Str} {name : Str} (h : (p ++ name :: q).Nodup) :
    (p ++ name :: q).idxOf name = p.length := by
  have hnot : name ∉ p := fun hmem =>
    (List.nodup_append.1 h).2.2 name hmem name List.mem_cons_self rfl
  rw [List.idxOf_append_of_notMem hnot, List.idxOf_cons_self, Nat.add_zero]

theorem readParts_of_sublist {es : List (Str × Str)} {next : ℕ} {values : List (Str × Str)}
    (h : (es.map Prod.fst).Sublist (FIELDS.drop next)) :
    readParts next values (es.map entryText) = some (values ++ es) := by
  induction es generalizing next values with
  | nil => rw [List.map_nil, readParts, List.append_nil]
  | cons e es ih =>
    obtain ⟨name, value⟩ := e
    obtain ⟨r₁, r₂, hr, hmem, hsub⟩ := List.cons_sublist_iff.1 h
    obtain ⟨a, b, rfl⟩ := List.append_of_mem hmem
    have hsplit : FIELDS = (FIELDS.take next ++ a) ++ name :: (b ++ r₂) := by
      calc FIELDS = FIELDS.take next ++ FIELDS.drop next := (List.take_append_drop ..).symm
        _ = _ := by rw [hr]; simp
    have hname : name ∈ FIELDS := by
      rw [hsplit]
      simp
    have hidx : FIELDS.idxOf name = (FIELDS.take next ++ a).length := by
      have hnodup := nodup_FIELDS
      rw [hsplit] at hnodup
      exact (congrArg (List.idxOf name) hsplit).trans (idxOf_of_nodup hnodup)
    have hlen : next ≤ FIELDS.idxOf name := by
      have hpos : 0 < (FIELDS.drop next).length := by
        rw [hr, List.length_append, List.length_append, List.length_cons]
        omega
      rw [List.length_drop] at hpos
      rw [hidx, List.length_append, List.length_take]
      omega
    have hdrop : FIELDS.drop (FIELDS.idxOf name + 1) = b ++ r₂ := by
      have htail : (FIELDS.take next ++ a ++ [name]).length = FIELDS.idxOf name + 1 := by
        rw [hidx, List.length_append, List.length_singleton]
      calc FIELDS.drop (FIELDS.idxOf name + 1)
          = ((FIELDS.take next ++ a ++ [name]) ++ (b ++ r₂)).drop (FIELDS.idxOf name + 1) := by
            refine congrArg _ (hsplit.trans ?_)
            simp
        _ = b ++ r₂ := List.drop_left' htail
    have hsub' : (es.map Prod.fst).Sublist (FIELDS.drop (FIELDS.idxOf name + 1)) := by
      rw [hdrop]
      exact hsub.trans (List.sublist_append_right b r₂)
    have hgood : ¬(name ∉ FIELDS ∨ FIELDS.idxOf name < next) := by
      rw [not_or, not_not]
      exact ⟨hname, Nat.not_lt.2 hlen⟩
    rw [List.map_cons, readParts, entryText, partition_append (equals_not_mem_FIELDS hname)]
    dsimp only
    rw [if_neg hgood, ih hsub', List.append_assoc, List.singleton_append]

theorem slash_not_mem_entryText {s : Scope} {e : Str × Str} (h : e ∈ s.entries) :
    '/' ∉ entryText e := by
  rw [entries_eq, List.mem_cons] at h
  have hpart : '/' ∉ e.2 := by
    rcases h with rfl | h
    · exact not_mem_of_isPart (.inl rfl) s.tenant_ok
    · obtain ⟨f, -, hf⟩ := List.mem_filterMap.1 h
      obtain ⟨v, hv, rfl⟩ := Option.map_eq_some_iff.1 hf
      exact not_mem_of_isPart (.inl rfl) (s.part_ok f v hv)
  have hname : e.1 ∈ FIELDS := by
    rcases h with rfl | h
    · exact List.mem_cons_self
    · obtain ⟨f, hmem, hf⟩ := List.mem_filterMap.1 h
      obtain ⟨v, -, rfl⟩ := Option.map_eq_some_iff.1 hf
      exact List.mem_cons_of_mem _ (List.mem_map_of_mem hmem)
  rw [entryText, List.mem_append, List.mem_cons, not_or, not_or]
  exact ⟨slash_not_mem_FIELDS hname, by decide, hpart⟩

/-- **Reading and writing.** A text is read as a scope exactly if it is the scope's key. -/
theorem parse_iff (text : Str) (s : Scope) : parse text = some s ↔ text = s.key := by
  constructor
  · intro h
    rw [parse] at h
    split_ifs at h with hne
    obtain ⟨values, hvalues, h⟩ := Option.bind_eq_some_iff.1 h
    obtain ⟨tenant, htenant, h⟩ := Option.bind_eq_some_iff.1 h
    obtain ⟨hs, hpart⟩ := make_eq_some h
    obtain ⟨es, hes, hparts, hsub⟩ := readParts_spec hvalues
    rw [List.nil_append] at hes
    subst hes
    have hentries : s.entries = values := by
      rw [← filterMap_lookup nodup_FIELDS hsub, entries]
      refine List.filterMap_congr fun name hname => ?_
      rcases List.mem_cons.1 hname with rfl | hname
      · rw [value_tenant, htenant, hs]
      · obtain ⟨f, -, rfl⟩ := List.mem_map.1 hname
        rw [value_name, hpart]
    rw [key_eq, hentries, ← hparts, joinSep_split (List.cons_ne_nil _ _)]
  · rintro rfl
    have hslash : ∀ p ∈ s.entries.map entryText, '/' ∉ p := by
      intro p hp
      obtain ⟨e, he, rfl⟩ := List.mem_map.1 hp
      exact slash_not_mem_entryText he
    have hne : s.entries.map entryText ≠ [] := by
      rw [entries_eq]
      exact List.cons_ne_nil _ _
    have hsplit : split ['/'] s.key = s.entries.map entryText := by
      rw [key_eq, split_singleton_joinSep hne hslash]
    have hread : readParts 0 [] (s.entries.map entryText) = some s.entries :=
      readParts_of_sublist s.sublist_names
    have hkey : s.key ≠ [] := by
      intro hnil
      rw [hnil] at hsplit
      have hentry : entryText ("tenant".toList, s.tenant) = [] := by
        rw [entries_eq] at hsplit
        exact (List.cons_eq_cons.1 hsplit).1.symm
      simp [entryText] at hentry
    have htenant : s.entries.lookup "tenant".toList = some s.tenant :=
      (s.lookup_entries List.mem_cons_self).trans s.value_tenant
    have hpart : (fun f : Field => s.entries.lookup f.name) = s.part := by
      funext f
      have hmem : f.name ∈ FIELDS := List.mem_cons_of_mem _ (List.mem_map_of_mem (mem_fields f))
      rw [s.lookup_entries hmem, value_name]
    rw [parse, if_neg hkey, hsplit, hread, Option.bind_some, htenant, Option.bind_some, hpart,
      make_self]

/-! ## Narrowing -/

variable {s t : Scope}

/-- Two scopes that cover each other are one. -/
theorem covers_antisymm (h : s.covers t) (h' : t.covers s) : s = t := by
  obtain ⟨htenant, hpart⟩ := covers_iff.1 h
  obtain ⟨-, hpart'⟩ := covers_iff.1 h'
  refine Scope.ext htenant (funext fun f => ?_)
  rcases hpart f with hnone | heq
  · rcases hpart' f with hnone' | heq'
    · rw [hnone, hnone']
    · exact heq'.symm
  · exact heq

/-- A part that was set stays. -/
theorem narrowParts_keeps {parts : List (Str × Option Str)} {values values' : Field → Option Str}
    (h : narrowParts values parts = some values') (f : Field) :
    values f = none ∨ values f = values' f := by
  induction parts generalizing values with
  | nil =>
    obtain rfl := Option.some.inj h
    exact .inr rfl
  | cons e parts ih =>
    obtain ⟨name, value⟩ := e
    rw [narrowParts] at h
    cases hname : fieldOf? name with
    | none =>
      rw [hname] at h
      exact nomatch h
    | some g =>
      rw [hname] at h
      dsimp only at h
      split_ifs at h with hset
      rw [not_and_or, not_not, not_not] at hset
      have hrest := ih h
      by_cases hfg : f = g
      · subst hfg
        rw [Function.update_self] at hrest
        rcases hset with hnone | hsame
        · exact .inl hnone
        · rwa [hsame]
      · rwa [Function.update_of_ne hfg] at hrest

theorem covers_of_narrow {parts : List (Str × Option Str)} (h : s.narrow parts = some t) :
    s.covers t := by
  obtain ⟨values, hvalues, hmake⟩ := Option.bind_eq_some_iff.1 h
  obtain ⟨htenant, hpart⟩ := make_eq_some hmake
  refine covers_iff.2 ⟨htenant.symm, fun f => ?_⟩
  rw [hpart]
  exact narrowParts_keeps hvalues f

theorem parse_key (s : Scope) : parse s.key = some s := (parse_iff s.key s).2 rfl

theorem key_injective : Function.Injective key := by
  intro s t h
  have hs := parse_key s
  rw [h, parse_key] at hs
  exact (Option.some.inj hs).symm

/-- **Scopes and their keys.** Keys are read back and exactly the keys are read, no two scopes share
one, `covers` is a partial order and a narrowed scope is covered. -/
theorem parse_key_and_covers_narrow :
    (∀ s : Scope, parse s.key = some s) ∧ (∀ s t : Scope, s ≠ t → s.key ≠ t.key) ∧
      (∀ (text : Str) (s : Scope), parse text = some s → s.key = text) ∧
      ((∀ s : Scope, s.covers s) ∧ (∀ s t : Scope, s.covers t → t.covers s → s = t) ∧
        ∀ s t u : Scope, s.covers t → t.covers u → s.covers u) ∧
      ∀ (s t : Scope) (parts : List (Str × Option Str)), s.narrow parts = some t → s.covers t := by
  refine ⟨parse_key, fun s t hne h => hne (key_injective h), fun text s h => ?_,
    ⟨covers_refl, fun s t => covers_antisymm, fun s t u => covers_trans⟩,
    fun s t parts => covers_of_narrow⟩
  exact ((parse_iff text s).1 h).symm

end Scope

end RagLeap.Security
