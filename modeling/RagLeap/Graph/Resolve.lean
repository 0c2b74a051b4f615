import RagLeap.Graph.Dedup

/-!
# The mapping of `EntityDeduplicator.resolve`

The names are put into clusters one after another, a cluster is known by the name it was opened
with, and its canonical name is the first of the longest. `mapping_canonical` says what holds of the
mapping once all clusters are made: it is closed, its canonical names stand for themselves, and
names with one normal form share one. All it takes is that a text is similar to itself.
-/

namespace RagLeap.Graph

open FirstFit

variable (env : GraphEnv) (names : List Str)

/-! ## The code -/

/-- `clusters` after the loop. -/
def clusters : List (List Str) := names.foldl (fun clusters name => placeName env name clusters) []

/-- The mapping that `resolve` returns. -/
def mapping : Dict Str Str :=
  (clusters env names).foldl
    (fun m cluster => cluster.foldl (fun m name => m.set name (longest cluster)) m) .empty

/-! ## What a mapping to canonical names is -/

/-- The names that were given are mapped, to one of them; a canonical name is mapped to itself, has
the length of its cluster's longest name and is that of all names in the cluster; and names with one
normal form have one canonical name. -/
structure Canonical (m : Dict Str Str) : Prop where
  mapped : ∀ name, (∃ c, m.get? name = some c) ↔ name ∈ names
  closed : ∀ name c, m.get? name = some c → c ∈ names
  fixed : ∀ name c, m.get? name = some c → m.get? c = some c
  longest : ∀ cluster ∈ clusters env names, ∃ c ∈ cluster, ∀ name ∈ cluster,
    m.get? name = some c ∧ name.length ≤ c.length
  sameForm : ∀ a ∈ names, ∀ b ∈ names, dedupKey env a = dedupKey env b → m.get? a = m.get? b

/-! ## The longest name -/

theorem length_le_longest {cluster : List Str} {name : Str} (h : name ∈ cluster) :
    name.length ≤ (longest cluster).length := by
  have hfold : ∀ (l : List Str) (best : Str), ∀ n ∈ best :: l,
      n.length ≤ (l.foldl (fun best name => if best.length < name.length then name else best)
        best).length := by
    intro l
    induction l with
    | nil => simp
    | cons a l ih =>
      intro best n hn
      rw [List.foldl_cons]
      have hkept := ih (if best.length < a.length then a else best)
      rcases List.mem_cons.1 hn with rfl | hn
      · refine le_trans ?_ (hkept _ List.mem_cons_self)
        split_ifs <;> omega
      · rcases List.mem_cons.1 hn with rfl | hn
        · refine le_trans ?_ (hkept _ List.mem_cons_self)
          split_ifs <;> omega
        · exact hkept n (List.mem_cons_of_mem _ hn)
  exact hfold cluster [] name (List.mem_cons_of_mem _ h)

/-! ## The mapping -/

section

variable {env names}

theorem get?_setAll (c : Str) (cluster : List Str) (m : Dict Str Str) (name : Str) :
    (cluster.foldl (fun m name => m.set name c) m).get? name =
      if name ∈ cluster then some c else m.get? name := by
  induction cluster generalizing m with
  | nil => simp
  | cons a cluster ih =>
    rw [List.foldl_cons, ih, Dict.get?_set]
    by_cases ha : name = a
    · simp [ha]
    · simp [ha]

/-- Where the clusters with a name have one canonical name, that is what it is mapped to. -/
theorem get?_mapAll {cs : List (List Str)} {name c : Str}
    (hc : ∀ cluster ∈ cs, name ∈ cluster → longest cluster = c) (m : Dict Str Str) :
    (cs.foldl (fun m cluster =>
        cluster.foldl (fun m name => m.set name (longest cluster)) m) m).get? name =
      if ∃ cluster ∈ cs, name ∈ cluster then some c else m.get? name := by
  induction cs generalizing m with
  | nil => simp
  | cons cluster cs ih =>
    rw [List.foldl_cons, ih fun g hg => hc g (List.mem_cons_of_mem _ hg), get?_setAll]
    by_cases hrest : ∃ cluster ∈ cs, name ∈ cluster
    · have hall : ∃ g ∈ cluster :: cs, name ∈ g :=
        hrest.imp fun g hg => ⟨List.mem_cons_of_mem _ hg.1, hg.2⟩
      rw [if_pos hrest, if_pos hall]
    · rw [if_neg hrest]
      by_cases hname : name ∈ cluster
      · rw [if_pos hname, if_pos ⟨cluster, List.mem_cons_self, hname⟩,
          hc cluster List.mem_cons_self hname]
      · have hnone : ¬ ∃ g ∈ cluster :: cs, name ∈ g := by
          rintro ⟨g, hg, hng⟩
          rcases List.mem_cons.1 hg with rfl | hg
          · exact hname hng
          · exact hrest ⟨g, hg, hng⟩
        rw [if_neg hname, if_neg hnone]

theorem clusters_eq : clusters env names = groups (alike env) names := groups_eq env names

variable (hsim : ∀ s, env.similar s s)

include hsim

/-- The mapping sends a name that was given to its canonical name. -/
theorem get?_mapping {name : Str} (h : name ∈ names) :
    (mapping env names).get? name = some (resolve env names name) := by
  have halike : ∀ a, alike env a a := fun a => hsim _
  have hone : ∀ cluster ∈ clusters env names, name ∈ cluster →
      longest cluster = resolve env names name := fun cluster hcluster hname => by
    rw [clusters_eq] at hcluster
    rw [resolve_of_mem hsim h, (mem_groups_iff halike h).1 ⟨hcluster, hname⟩]
  have hex : ∃ cluster ∈ clusters env names, name ∈ cluster := by
    rw [clusters_eq]
    exact ⟨_, (mem_groups_iff halike h).2 rfl⟩
  rw [mapping, get?_mapAll hone, if_pos hex]

omit hsim in
theorem get?_mapping_of_notMem {name : Str} (h : name ∉ names) :
    (mapping env names).get? name = none := by
  have hnone : ¬ ∃ cluster ∈ clusters env names, name ∈ cluster := by
    rintro ⟨cluster, hcluster, hname⟩
    rw [clusters_eq] at hcluster
    exact h (mem_of_mem_groups _ hcluster hname)
  have hone : ∀ cluster ∈ clusters env names, name ∈ cluster → longest cluster = [] :=
    fun cluster hcluster hname => absurd ⟨cluster, hcluster, hname⟩ hnone
  rw [mapping, get?_mapAll hone, if_neg hnone, Dict.get?_empty]

theorem get?_mapping_eq_some {name c : Str} :
    (mapping env names).get? name = some c ↔ name ∈ names ∧ resolve env names name = c := by
  by_cases h : name ∈ names
  · simp [get?_mapping hsim h, h]
  · simp [get?_mapping_of_notMem h, h]

/-- Names with one normal form go with one head. -/
theorem resolve_eq_of_dedupKey {a b : Str} (ha : a ∈ names) (hb : b ∈ names)
    (h : dedupKey env a = dedupKey env b) : resolve env names a = resolve env names b := by
  have hlike : alike env a = alike env b := by
    funext c
    rw [alike, alike, h]
  have hhead : headOf (alike env) names a = headOf (alike env) names b := by
    rw [headOf, headOf, hlike]
  exact resolve_congr hsim ha hb hhead

/-- All names of a cluster have its longest name as their canonical name. -/
theorem resolve_of_mem_cluster {cluster : List Str} (hcluster : cluster ∈ clusters env names)
    {name : Str} (h : name ∈ cluster) :
    name ∈ names ∧ resolve env names name = longest cluster := by
  have halike : ∀ a, alike env a a := fun a => hsim _
  rw [clusters_eq] at hcluster
  have hmem := mem_of_mem_groups _ hcluster h
  exact ⟨hmem, by rw [resolve_of_mem hsim hmem, (mem_groups_iff halike hmem).1 ⟨hcluster, h⟩]⟩

omit hsim in
theorem ne_nil_of_mem_clusters {cluster : List Str} (h : cluster ∈ clusters env names) :
    cluster ≠ [] := by
  have hplace : ∀ (name : Str) (cs : List (List Str)), [] ∉ cs → [] ∉ placeName env name cs := by
    intro name cs
    induction cs with
    | nil => simp [placeName]
    | cons c cs ih =>
      intro hcs
      rw [List.mem_cons, not_or] at hcs
      rw [placeName]
      split_ifs
      · simp [hcs.2]
      · simp [hcs.1, ih hcs.2]
  have hfold : ∀ (l : List Str) (cs : List (List Str)), [] ∉ cs →
      [] ∉ l.foldl (fun cs name => placeName env name cs) cs := by
    intro l
    induction l with
    | nil => exact fun _ hcs => hcs
    | cons name l ih => exact fun cs hcs => ih _ (hplace name cs hcs)
  rintro rfl
  exact hfold names [] List.not_mem_nil h

/-- **The mapping is a closed canonical mapping.** -/
theorem mapping_canonical : Canonical env names (mapping env names) where
  mapped name := by
    simp only [get?_mapping_eq_some hsim]
    exact ⟨fun ⟨_, h, _⟩ => h, fun h => ⟨_, h, rfl⟩⟩
  closed name c h := by
    obtain ⟨hname, rfl⟩ := (get?_mapping_eq_some hsim).1 h
    exact resolve_mem hsim hname
  fixed name c h := by
    obtain ⟨hname, rfl⟩ := (get?_mapping_eq_some hsim).1 h
    exact (get?_mapping_eq_some hsim).2 ⟨resolve_mem hsim hname, resolve_resolve hsim hname⟩
  longest cluster hcluster :=
    ⟨longest cluster, longest_mem (ne_nil_of_mem_clusters hcluster), fun name hname =>
      ⟨(get?_mapping_eq_some hsim).2 (resolve_of_mem_cluster hsim hcluster hname),
        length_le_longest hname⟩⟩
  sameForm a ha b hb h := by
    rw [get?_mapping hsim ha, get?_mapping hsim hb, resolve_eq_of_dedupKey hsim ha hb h]

end

/-! ## Two spellings of one person -/

namespace Sample

/-- Two spellings of one name, one of them twice, and another name. -/
def antony : List Str := ["TC Antony", "T.C. Antony", "Bob", "TC Antony"].map String.toList

theorem mapping_canonical_antony : Canonical .ascii antony (mapping .ascii antony) :=
  mapping_canonical fun s => beq_self_eq_true s

end Sample

end RagLeap.Graph
