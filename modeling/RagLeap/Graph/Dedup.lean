import RagLeap.Foundations.FirstFit
import RagLeap.Graph.Extraction

/-!
# What merging near-duplicate names keeps

`_apply_entity_dedup` replaces the entity names of a document by the canonical ones, but in a pair
or a relation it only finds the names that are spelled exactly as an entity. The weights and the
relations survive (`total_entities`, `mem_relations_iff`); an endpoint in another letter case is an
entity afterwards just if the canonical name differs from it in letter case only.
-/

namespace RagLeap.Graph

open FirstFit

/-! ## Counters -/

namespace Counter

variable {κ κ' : Type} [DecidableEq κ]

/-- `list(counter.keys())`. -/
abbrev keys (c : Counter κ) : List κ := c.items.map Prod.fst

/-- `sum(counter.values())`. -/
def total (c : Counter κ) : ℕ := (c.items.map fun e => (e.2 : ℕ)).sum

theorem sum_replace {l : List (κ × ℕ+)} (hnodup : (l.map Prod.fst).Nodup) {k : κ} {m : ℕ+}
    (hk : (k, m) ∈ l) (n : ℕ+) :
    ((l.map fun e => if e.1 = k then (k, m + n) else e).map fun e => (e.2 : ℕ)).sum =
      (l.map fun e => (e.2 : ℕ)).sum + n := by
  induction l with
  | nil => exact absurd hk List.not_mem_nil
  | cons e l ih =>
    rw [List.map_cons, List.nodup_cons] at hnodup
    simp only [List.map_cons, List.sum_cons]
    rcases List.mem_cons.1 hk with rfl | hl
    · have hsame : (l.map fun e => if e.1 = k then (k, m + n) else e) = l := by
        refine (List.map_congr_left fun e he => ?_).trans (List.map_id l)
        exact if_neg fun heq => hnodup.1 (List.mem_map.2 ⟨e, he, heq⟩)
      rw [if_pos rfl, hsame, PNat.add_coe]
      exact Nat.add_right_comm m n _
    · have hne : e.1 ≠ k := fun heq => hnodup.1 (List.mem_map.2 ⟨_, hl, heq.symm⟩)
      rw [if_neg hne, ih hnodup.2 hl]
      omega

theorem total_add (c : Counter κ) (k : κ) (n : ℕ+) : (c.add k n).total = c.total + n := by
  unfold add
  cases hget : c.get? k with
  | none => simp [total, Dict.items_set_of_none hget]
  | some m =>
    have hmem : (k, m) ∈ c.items := Dict.get?_eq_some_iff.1 hget
    have hk : k ∈ c.items.map Prod.fst := List.mem_map.2 ⟨_, hmem, rfl⟩
    rw [Dict.set, dif_pos hk]
    exact sum_replace c.nodup hmem n

theorem total_foldl (f : κ' → κ) (l : List (κ' × ℕ+)) (c : Counter κ) :
    (l.foldl (fun m e => m.add (f e.1) e.2) c).total =
      c.total + (l.map fun e => (e.2 : ℕ)).sum := by
  induction l generalizing c with
  | nil => simp
  | cons e l ih =>
    rw [List.foldl_cons, ih, total_add, List.map_cons, List.sum_cons]
    omega

theorem mem_keys_foldl (f : κ' → κ) (l : List (κ' × ℕ+)) (c : Counter κ) (k : κ) :
    k ∈ (l.foldl (fun m e => m.add (f e.1) e.2) c).keys ↔
      k ∈ c.keys ∨ ∃ e ∈ l, f e.1 = k := by
  induction l generalizing c with
  | nil => simp
  | cons e l ih =>
    rw [List.foldl_cons, ih, keys, add, Dict.mem_keys_set, or_assoc]
    simp [eq_comm]

/-- The keys of a counter with its keys renamed, without the entries that `p` drops. -/
theorem mem_keys_renamed (p : κ' → Prop) [DecidablePred p] (f : κ' → κ) (c : Counter κ') (k : κ) :
    k ∈ keys (c.items.foldl (fun (m : Counter κ) e => if p e.1 then m else m.add (f e.1) e.2)
        Dict.empty) ↔ ∃ k' ∈ c.items.map Prod.fst, ¬ p k' ∧ f k' = k := by
  have hfold : c.items.foldl (fun (m : Counter κ) e => if p e.1 then m else m.add (f e.1) e.2)
        Dict.empty =
      (c.items.filter fun e => ¬ p e.1).foldl (fun (m : Counter κ) e => m.add (f e.1) e.2) Dict.empty := by
    rw [List.foldl_filter]
    congr 1
    funext m e
    by_cases hp : p e.1 <;> simp [hp]
  rw [hfold, mem_keys_foldl]
  simp [keys, Dict.empty, and_assoc]

end Counter

/-! ## Canonical names -/

section

variable (env : GraphEnv)

/-- Two names have similar normal forms. -/
def alike (a b : Str) : Bool := env.similar (dedupKey env a) (dedupKey env b)

theorem placeName_eq (name : Str) (clusters : List (List Str)) :
    placeName env name clusters = place (alike env) name clusters := by
  induction clusters with
  | nil => rfl
  | cons cluster clusters ih => rw [placeName, place, ih]; rfl

/-- Names that differ in letter case only go with one head. -/
theorem headOf_eq_of_lower {names : List Str} {a b : Str} (h : env.lower a = env.lower b) :
    headOf (alike env) names a = headOf (alike env) names b := by
  have hlike : alike env a = alike env b := by
    funext c
    have hkey : dedupKey env a = dedupKey env b := by rw [dedupKey, dedupKey, h]
    rw [alike, alike, hkey]
  rw [headOf, headOf, hlike]

theorem longest_mem {cluster : List Str} (h : cluster ≠ []) : longest cluster ∈ cluster := by
  have hfold : ∀ (l : List Str) (best : Str),
      l.foldl (fun best name => if best.length < name.length then name else best) best ∈
        best :: l := by
    intro l
    induction l with
    | nil => simp
    | cons name l ih =>
      intro best
      rw [List.foldl_cons]
      rcases List.mem_cons.1 (ih (if best.length < name.length then name else best)) with heq | hl
      · rw [heq]
        split_ifs
        · exact List.mem_cons_of_mem best List.mem_cons_self
        · exact List.mem_cons_self
      · exact List.mem_cons_of_mem _ (List.mem_cons_of_mem name hl)
  obtain ⟨name, l, rfl⟩ := List.exists_cons_of_ne_nil h
  rw [longest, List.foldl_cons]
  -- the first name replaces the empty one, or is empty itself
  have hfirst : (if ([] : Str).length < name.length then name else []) = name := by
    cases name <;> simp
  rw [hfirst]
  exact hfold l name

variable {env} {names : List Str}

theorem groups_eq (env : GraphEnv) (names : List Str) :
    names.foldl (fun clusters name => placeName env name clusters) [] =
      groups (alike env) names := by
  have hplace : (fun clusters name => placeName env name clusters) =
      fun clusters name => place (alike env) name clusters := by
    funext clusters name
    exact placeName_eq env name clusters
  rw [hplace, groups]

theorem resolve_of_notMem {name : Str} (h : name ∉ names) : resolve env names name = name := by
  rw [resolve, groups_eq, find?_groups_of_notMem _ (fun _ => decide_eq_true_iff) h]

section

variable (hsim : ∀ s, env.similar s s)

include hsim

theorem resolve_of_mem {name : Str} (h : name ∈ names) :
    resolve env names name = longest (companions (alike env) names name) := by
  have halike : ∀ a, alike env a a := fun a => hsim _
  rw [resolve, groups_eq, find?_groups halike (fun _ => decide_eq_true_iff) names h]

theorem resolve_mem_companions {name : Str} (h : name ∈ names) :
    resolve env names name ∈ companions (alike env) names name := by
  rw [resolve_of_mem hsim h]
  exact longest_mem (List.ne_nil_of_mem (mem_companions.2 ⟨h, rfl⟩))

theorem resolve_mem {name : Str} (h : name ∈ names) : resolve env names name ∈ names :=
  (mem_companions.1 (resolve_mem_companions hsim h)).1

/-- Entities with one head have one canonical name. -/
theorem resolve_congr {a b : Str} (ha : a ∈ names) (hb : b ∈ names)
    (h : headOf (alike env) names a = headOf (alike env) names b) :
    resolve env names a = resolve env names b := by
  rw [resolve_of_mem hsim ha, resolve_of_mem hsim hb, companions_congr h]

theorem resolve_resolve {name : Str} (h : name ∈ names) :
    resolve env names (resolve env names name) = resolve env names name :=
  resolve_congr hsim (resolve_mem hsim h) h
    (mem_companions.1 (resolve_mem_companions hsim h)).2

/-- A name that is no entity is not the canonical name of another. -/
theorem eq_of_resolve_eq {a b : Str} (ha : a ∉ names)
    (h : resolve env names a = resolve env names b) : a = b := by
  rw [resolve_of_notMem ha] at h
  by_cases hb : b ∈ names
  · exact absurd (h ▸ resolve_mem hsim hb) ha
  · rw [h, resolve_of_notMem hb]

end

end

/-! ## What is merged -/

section

variable {env : GraphEnv}

namespace Counters

variable {lower : Str → Str} (c : Counters lower)

/-- The entity names. -/
abbrev names : List Str := c.entities.keys

/-- The ends of the pairs and of the relations. -/
def links : List (Str × Str) :=
  c.pairs.keys.map (fun p => (p.a, p.b)) ++ c.relations.keys.map fun r => (r.1, r.2.2)

/-- The names that are an end of a pair or a relation. -/
def endpoints : List Str := c.links.flatMap fun p => [p.1, p.2]

/-- The name is an entity, ignoring case. -/
def IsEntity (x : Str) : Prop := ∃ k ∈ c.names, lower k = lower x

instance (x : Str) : Decidable (c.IsEntity x) := inferInstanceAs (Decidable (∃ k ∈ _, _))

end Counters

/-- Nothing is lost: an endpoint that was an entity is one, the weight of the entities is the same,
and a relation that is not found under the canonical names of its ends has one end, or ends that
have become one entity. -/
structure Conserves (before after : Counters env.lower) : Prop where
  endpoint : ∀ y ∈ after.endpoints, before.IsEntity y → after.IsEntity y
  weight : after.entities.total = before.entities.total
  relation : ∀ r ∈ before.relations.keys,
    (resolve env before.names r.1, r.2.1, resolve env before.names r.2.2) ∉ after.relations.keys →
      r.1 = r.2.2 ∨ ∃ k ∈ after.names,
        resolve env before.names r.1 = k ∧ resolve env before.names r.2.2 = k

/-- An end of a pair or a relation between two names that is an entity in another letter case only:
the longest name that goes with the entity is spelled as it, ignoring case. -/
def CaseKept (c : Counters env.lower) : Prop :=
  ∀ p ∈ c.links, p.1 ≠ p.2 → ∀ x ∈ [p.1, p.2], x ∉ c.names →
    ∀ k ∈ c.names, env.lower k = env.lower x →
      env.lower (longest (companions (alike env) c.names k)) = env.lower k

instance (c : Counters env.lower) : Decidable (CaseKept c) :=
  inferInstanceAs (Decidable (∀ p ∈ c.links, _))

theorem names_applyEntityDedup (c : Counters env.lower) (k : Str) :
    k ∈ (applyEntityDedup env c).names ↔ ∃ name ∈ c.names, resolve env c.names name = k := by
  rw [Counters.names, applyEntityDedup, Counter.mem_keys_foldl]
  simp [Counters.names, Counter.keys, Dict.empty]

theorem total_entities (c : Counters env.lower) :
    (applyEntityDedup env c).entities.total = c.entities.total := by
  rw [applyEntityDedup, Counter.total_foldl]
  simp [Counter.total, Dict.empty]

theorem mem_relations_iff (c : Counters env.lower) (r : Relation) :
    r ∈ (applyEntityDedup env c).relations.keys ↔ ∃ r' ∈ c.relations.keys,
      resolve env c.names r'.1 ≠ resolve env c.names r'.2.2 ∧
      (resolve env c.names r'.1, r'.2.1, resolve env c.names r'.2.2) = r :=
  Counter.mem_keys_renamed
    (fun r' : Relation => resolve env c.names r'.1 = resolve env c.names r'.2.2)
    (fun r' => (resolve env c.names r'.1, r'.2.1, resolve env c.names r'.2.2)) c.relations r

theorem mem_pairs_iff (c : Counters env.lower) (p : NamePair env.lower) :
    p ∈ (applyEntityDedup env c).pairs.keys ↔ ∃ p' ∈ c.pairs.keys,
      resolve env c.names p'.a ≠ resolve env c.names p'.b ∧
      NamePair.sorted env.lower (resolve env c.names p'.a) (resolve env c.names p'.b) = p :=
  Counter.mem_keys_renamed
    (fun p' : NamePair env.lower => resolve env c.names p'.a = resolve env c.names p'.b)
    (fun p' => NamePair.sorted env.lower (resolve env c.names p'.a) (resolve env c.names p'.b))
    c.pairs p

theorem sorted_ends (lower : Str → Str) (a b y : Str) :
    y = (NamePair.sorted lower a b).a ∨ y = (NamePair.sorted lower a b).b ↔ y = a ∨ y = b := by
  unfold NamePair.sorted
  split_ifs
  · exact Iff.rfl
  · exact or_comm

theorem mem_endpoints {lower : Str → Str} (c : Counters lower) (y : Str) :
    y ∈ c.endpoints ↔ ∃ p ∈ c.links, y = p.1 ∨ y = p.2 := by
  simp [Counters.endpoints, List.mem_flatMap]

theorem mem_links {lower : Str → Str} (c : Counters lower) (p : Str × Str) :
    p ∈ c.links ↔ (∃ q ∈ c.pairs.keys, (q.a, q.b) = p) ∨
      ∃ r ∈ c.relations.keys, (r.1, r.2.2) = p := by
  rw [Counters.links, List.mem_append, List.mem_map, List.mem_map]

/-- The endpoints afterwards: the canonical names of the ends that are not merged. -/
theorem endpoints_applyEntityDedup (c : Counters env.lower) (y : Str) :
    y ∈ (applyEntityDedup env c).endpoints ↔ ∃ p ∈ c.links,
      resolve env c.names p.1 ≠ resolve env c.names p.2 ∧
        (y = resolve env c.names p.1 ∨ y = resolve env c.names p.2) := by
  simp only [mem_endpoints, mem_links]
  constructor
  · rintro ⟨p, ⟨q, hq, rfl⟩ | ⟨r, hr, rfl⟩, hy⟩
    · obtain ⟨q', hq', hne, rfl⟩ := (mem_pairs_iff c q).1 hq
      exact ⟨(q'.a, q'.b), .inl ⟨q', hq', rfl⟩, hne, (sorted_ends _ _ _ y).1 hy⟩
    · obtain ⟨r', hr', hne, rfl⟩ := (mem_relations_iff c r).1 hr
      exact ⟨(r'.1, r'.2.2), .inr ⟨r', hr', rfl⟩, hne, hy⟩
  · rintro ⟨p, ⟨q, hq, rfl⟩ | ⟨r, hr, rfl⟩, hne, hy⟩
    · exact ⟨_, .inl ⟨_, (mem_pairs_iff c _).2 ⟨q, hq, hne, rfl⟩, rfl⟩,
        (sorted_ends _ _ _ y).2 hy⟩
    · exact ⟨_, .inr ⟨_, (mem_relations_iff c _).2 ⟨r, hr, hne, rfl⟩, rfl⟩, hy⟩

/-! ## Conservation -/

section

variable (hsim : ∀ s, env.similar s s)

include hsim

/-- An end that is no entity is in the result, unless its pair or relation has one end. -/
theorem mem_endpoints_of_notMem {c : Counters env.lower} {p : Str × Str} (hp : p ∈ c.links)
    (hne : p.1 ≠ p.2) {x : Str} (hx : x ∈ [p.1, p.2]) (hnot : x ∉ c.names) :
    x ∈ (applyEntityDedup env c).endpoints := by
  rw [List.mem_pair] at hx
  refine (endpoints_applyEntityDedup c x).2 ⟨p, hp, fun heq => hne ?_, ?_⟩
  · rcases hx with rfl | rfl
    · exact eq_of_resolve_eq hsim hnot heq
    · exact (eq_of_resolve_eq hsim hnot heq.symm).symm
  · rcases hx with rfl | rfl
    · exact .inl (resolve_of_notMem hnot).symm
    · exact .inr (resolve_of_notMem hnot).symm

/-- A name is an entity afterwards, ignoring case, just if the canonical name of the entity it was
is spelled as it, ignoring case. -/
theorem isEntity_applyEntityDedup_iff {c : Counters env.lower} {x k : Str} (hk : k ∈ c.names)
    (hlower : env.lower k = env.lower x) :
    (applyEntityDedup env c).IsEntity x ↔
      env.lower (longest (companions (alike env) c.names k)) = env.lower k := by
  rw [← resolve_of_mem hsim hk]
  constructor
  · rintro ⟨_, hm, heq⟩
    obtain ⟨name, hname, rfl⟩ := (names_applyEntityDedup c _).1 hm
    have hhead : headOf (alike env) c.names (resolve env c.names name) =
        headOf (alike env) c.names k := headOf_eq_of_lower env (heq.trans hlower.symm)
    calc env.lower (resolve env c.names k)
        = env.lower (resolve env c.names (resolve env c.names name)) := by
          rw [resolve_congr hsim (resolve_mem hsim hname) hk hhead]
      _ = env.lower (resolve env c.names name) := by rw [resolve_resolve hsim hname]
      _ = env.lower k := heq.trans hlower.symm
  · intro heq
    exact ⟨_, (names_applyEntityDedup c _).2 ⟨k, hk, rfl⟩, heq.trans hlower⟩

/-- A relation that is not found under the canonical names of its ends had both become one. -/
theorem relation_applyEntityDedup {c : Counters env.lower} {r : Relation}
    (hr : r ∈ c.relations.keys)
    (hlost : (resolve env c.names r.1, r.2.1, resolve env c.names r.2.2) ∉
      (applyEntityDedup env c).relations.keys) :
    r.1 = r.2.2 ∨ ∃ k ∈ (applyEntityDedup env c).names,
      resolve env c.names r.1 = k ∧ resolve env c.names r.2.2 = k := by
  have heq : resolve env c.names r.1 = resolve env c.names r.2.2 := by
    by_contra hne
    exact hlost ((mem_relations_iff c _).2 ⟨r, hr, hne, rfl⟩)
  by_cases hs : r.1 ∈ c.names
  · exact .inr ⟨_, (names_applyEntityDedup c _).2 ⟨_, hs, rfl⟩, rfl, heq.symm⟩
  · exact .inl (eq_of_resolve_eq hsim hs heq)

/-- Merging loses nothing just if no end in another letter case is renamed away. -/
theorem applyEntityDedup_conserves_iff (c : Counters env.lower) :
    Conserves c (applyEntityDedup env c) ↔ CaseKept c := by
  constructor
  · intro h p hp hne x hx hnot k hk hlower
    refine (isEntity_applyEntityDedup_iff hsim hk hlower).1 (h.endpoint x ?_ ⟨k, hk, hlower⟩)
    exact mem_endpoints_of_notMem hsim hp hne hx hnot
  · intro h
    refine ⟨fun y hy hbefore => ?_, total_entities c, fun r => relation_applyEntityDedup hsim⟩
    obtain ⟨p, hp, hne, hends⟩ := (endpoints_applyEntityDedup c y).1 hy
    obtain ⟨x, hx, rfl⟩ : ∃ x, (x = p.1 ∨ x = p.2) ∧ resolve env c.names x = y := by
      rcases hends with rfl | rfl
      · exact ⟨_, .inl rfl, rfl⟩
      · exact ⟨_, .inr rfl, rfl⟩
    by_cases hmem : x ∈ c.names
    · exact ⟨_, (names_applyEntityDedup c _).2 ⟨x, hmem, rfl⟩, rfl⟩
    · rw [resolve_of_notMem hmem] at hbefore ⊢
      obtain ⟨k, hk, hlower⟩ := hbefore
      have hdiff : p.1 ≠ p.2 := fun heq => hne (congrArg _ heq)
      exact (isEntity_applyEntityDedup_iff hsim hk hlower).2 (h p hp hdiff x (List.mem_pair.2 hx) hmem k hk
        hlower)

end

end

/-! ## An end in another letter case -/

namespace Sample

/-- Two spellings of one company and a person; the model names the company in small letters. -/
def company : Counters GraphEnv.ascii.lower where
  entities := .ofPairs [("Acme Corp".toList, ⟨1, Nat.one_pos⟩), ("ACME Corp.".toList, ⟨1, Nat.one_pos⟩),
    ("Bob".toList, ⟨1, Nat.one_pos⟩)]
  types := .empty
  pairs := .empty
  relations := .ofPairs [(("acme corp".toList, "EMPLOYS".toList, "Bob".toList), ⟨1, Nat.one_pos⟩)]

theorem company_lost : ¬ Conserves company (applyEntityDedup .ascii company) := fun h => by
  have hend : "acme corp".toList ∈ (applyEntityDedup .ascii company).endpoints := by
    decide
  have hbefore : company.IsEntity "acme corp".toList := by decide
  have hafter : ¬ (applyEntityDedup .ascii company).IsEntity "acme corp".toList := by
    decide
  exact hafter (h.endpoint _ hend hbefore)

/-- The same with the longer spelling in small letters. -/
def longerSpelling : Counters GraphEnv.ascii.lower :=
  { company with
    relations :=
      .ofPairs [(("acme corp.".toList, "EMPLOYS".toList, "Bob".toList), ⟨1, Nat.one_pos⟩)] }

theorem applyEntityDedup_conserves_longerSpelling :
    Conserves longerSpelling (applyEntityDedup .ascii longerSpelling) := by
  have hself : ∀ s, GraphEnv.ascii.similar s s := fun s => beq_self_eq_true s
  exact (applyEntityDedup_conserves_iff hself longerSpelling).2 (by decide)

end Sample

end RagLeap.Graph
