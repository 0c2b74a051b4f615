import Mathlib.Data.Set.Function
import RagLeap.Foundations.JsonRoundTrip
import RagLeap.Foundations.Lru

/-!
# The cache of query embeddings

`QueryEmbeddingCache` and `RedisQueryEmbeddingCache` of `ragleap/cache.py`, and the embedding of a
query through them. Both keep an embedding under the text `model:query`, which two pairs can share
(`key_eq_iff`). `cache_sound_iff` says over which pairs a hit is an embedding put for the pair that
was asked for; within one instance of `RagLeap` there is one model, and its hits are
(`embedQueryCached_spec`).

What Redis drops by itself, by expiry or for room, is a step of its own in the histories; so is
the deletion by `clear`.
-/

namespace RagLeap.EmbeddingCache

open JsonText

/-- `f"{model}:{query}"`, of a model and a query. -/
def key (pair : Str × Str) : Str := pair.1 ++ ':' :: pair.2

theorem append_colon_eq {m q m' q' t : Str} (hm : m' = m ++ t) (hq : ':' :: q = t ++ ':' :: q') :
    (m, q) = (m', q') ∨ ∃ mid, m' = m ++ ':' :: mid ∧ q = mid ++ ':' :: q' := by
  cases t with
  | nil =>
    left
    rw [hm, (List.cons.inj hq).2, List.append_nil]
  | cons c t =>
    obtain ⟨rfl, hq'⟩ := List.cons.inj hq
    exact .inr ⟨t, hm, hq'⟩

/-- Two pairs share a key where a colon that belongs to a model is read as the separator. -/
theorem key_eq_iff {m q m' q' : Str} :
    key (m, q) = key (m', q') ↔ (m, q) = (m', q') ∨
      (∃ mid, m' = m ++ ':' :: mid ∧ q = mid ++ ':' :: q') ∨
      ∃ mid, m = m' ++ ':' :: mid ∧ q' = mid ++ ':' :: q := by
  constructor
  · intro h
    rcases List.append_eq_append_iff.1 h with ⟨t, hm, hq⟩ | ⟨t, hm, hq⟩
    · exact (append_colon_eq hm hq).imp_right .inl
    · exact (append_colon_eq hm hq).imp Eq.symm .inr
  · rintro (h | ⟨mid, rfl, rfl⟩ | ⟨mid, rfl, rfl⟩)
    · rw [h]
    · simp [key]
    · simp [key]

theorem key_injOn_of_model {P : Set (Str × Str)} {m : Str} (h : ∀ p ∈ P, p.1 = m) :
    P.InjOn key := by
  rintro ⟨m₁, q₁⟩ h₁ ⟨m₂, q₂⟩ h₂ heq
  obtain rfl : m₁ = m := h _ h₁
  obtain rfl : m₂ = m₁ := h _ h₂
  have hq : q₁ = q₂ := by simpa [key] using heq
  rw [hq]

theorem key_injOn_of_no_colon {P : Set (Str × Str)} (h : ∀ p ∈ P, ':' ∉ p.1) : P.InjOn key := by
  rintro ⟨m₁, q₁⟩ h₁ ⟨m₂, q₂⟩ h₂ heq
  rcases key_eq_iff.1 heq with heq | ⟨mid, hm, -⟩ | ⟨mid, hm, -⟩
  · exact heq
  · exact absurd (by rw [hm]; simp) (h _ h₂)
  · exact absurd (by rw [hm]; simp) (h _ h₁)

/-! ## In memory -/

section Memory

variable {ε : Type}

structure QueryEmbeddingCache (ε : Type) where
  maxSize : ℤ
  store : Dict Str ε

namespace QueryEmbeddingCache

def init (maxSize : ℤ) : QueryEmbeddingCache ε := ⟨maxSize, Dict.empty⟩

def get (c : QueryEmbeddingCache ε) (query model : Str) : Option ε × QueryEmbeddingCache ε :=
  match c.store.get? (key (model, query)) with
  | some e => (some e, { c with store := c.store.moveToEnd (key (model, query)) })
  | none => (none, c)

def set (c : QueryEmbeddingCache ε) (query model : Str) (e : ε) : QueryEmbeddingCache ε :=
  { c with store := c.store.put c.maxSize (key (model, query)) e }

def clear (c : QueryEmbeddingCache ε) : QueryEmbeddingCache ε := { c with store := Dict.empty }

variable {c : QueryEmbeddingCache ε} {query model : Str}

theorem get_of_some {e : ε} (h : c.store.get? (key (model, query)) = some e) :
    c.get query model = (some e, { c with store := c.store.moveToEnd (key (model, query)) }) := by
  simp only [get, h]

theorem get_of_none (h : c.store.get? (key (model, query)) = none) :
    c.get query model = (none, c) := by
  simp only [get, h]

end QueryEmbeddingCache

inductive Call (ε : Type)
  | get (query model : Str)
  | set (query model : Str) (e : ε)
  | clear

/-- The call is about a pair of `P`. -/
def Call.Over (P : Set (Str × Str)) : Call ε → Prop
  | .get query model => (model, query) ∈ P
  | .set query model _ => (model, query) ∈ P
  | .clear => True

def step (c : QueryEmbeddingCache ε) : Call ε → QueryEmbeddingCache ε
  | .get query model => (c.get query model).2
  | .set query model e => c.set query model e
  | .clear => c.clear

/-- The keys used since the cache was empty: those that were put, and those that were found. -/
def use (c : QueryEmbeddingCache ε) (uses : List Str) : Call ε → List Str
  | .get query model =>
    if (c.get query model).1.isSome then uses ++ [key (model, query)] else uses
  | .set query model _ => uses ++ [key (model, query)]
  | .clear => []

def after : QueryEmbeddingCache ε → List (Call ε) → QueryEmbeddingCache ε
  | c, [] => c
  | c, call :: calls => after (step c call) calls

def usesAfter : QueryEmbeddingCache ε → List Str → List (Call ε) → List Str
  | _, uses, [] => uses
  | c, uses, call :: calls => usesAfter (step c call) (use c uses call) calls

/-- What the cache holds after `calls`: the keys used last, each with an embedding put under it. -/
structure Holds (calls : List (Call ε)) (uses : List Str) (c : QueryEmbeddingCache ε) : Prop where
  recent : Dict.MostRecent c.maxSize.toNat uses c.store.keys
  put : ∀ k e, c.store.get? k = some e → ∃ query model, .set query model e ∈ calls ∧
    k = key (model, query)

namespace Holds

variable {calls : List (Call ε)} {uses : List Str} {c : QueryEmbeddingCache ε}

theorem init (maxSize : ℤ) : Holds [] [] (.init maxSize : QueryEmbeddingCache ε) :=
  ⟨.nil _, fun k e h => by cases h⟩

/-- **Every call keeps what the cache holds.** -/
theorem step (h : Holds calls uses c) (call : Call ε) :
    Holds (calls ++ [call]) (use c uses call) (EmbeddingCache.step c call) := by
  have hmono : ∀ k e, c.store.get? k = some e → ∃ query model,
      .set query model e ∈ calls ++ [call] ∧ k = key (model, query) := fun k e hk => by
    obtain ⟨query, model, hmem, hkey⟩ := h.put k e hk
    exact ⟨query, model, List.mem_append_left _ hmem, hkey⟩
  cases call with
  | get query model =>
    simp only [EmbeddingCache.step, use]
    cases hk : c.store.get? (key (model, query)) with
    | none =>
      rw [QueryEmbeddingCache.get_of_none hk]
      exact ⟨h.recent, hmono⟩
    | some e =>
      rw [QueryEmbeddingCache.get_of_some hk]
      refine ⟨h.recent.moveToEnd hk, fun k e' hget => ?_⟩
      dsimp only at hget
      rw [Dict.get?_moveToEnd] at hget
      exact hmono k e' hget
  | set query model e =>
    simp only [EmbeddingCache.step, use, QueryEmbeddingCache.set]
    refine ⟨h.recent.put _ e, fun k e' hget => ?_⟩
    rcases Dict.get?_of_get?_put hget with ⟨rfl, rfl⟩ | ⟨-, hold⟩
    · exact ⟨query, model, by simp, rfl⟩
    · exact hmono k e' hold
  | clear => exact ⟨.nil _, fun k e hget => by cases hget⟩

theorem after (h : Holds calls uses c) (calls' : List (Call ε)) :
    Holds (calls ++ calls') (usesAfter c uses calls') (EmbeddingCache.after c calls') := by
  induction calls' generalizing calls uses c with
  | nil => simpa [usesAfter, EmbeddingCache.after] using h
  | cons call calls' ih => simpa [usesAfter, EmbeddingCache.after] using ih (h.step call)

end Holds

theorem maxSize_step (c : QueryEmbeddingCache ε) (call : Call ε) :
    (step c call).maxSize = c.maxSize := by
  cases call with
  | get query model =>
    simp only [step, QueryEmbeddingCache.get]
    split <;> rfl
  | set | clear => rfl

theorem maxSize_after (c : QueryEmbeddingCache ε) (calls : List (Call ε)) :
    (after c calls).maxSize = c.maxSize := by
  induction calls generalizing c with
  | nil => rfl
  | cons call calls ih => exact (ih _).trans (maxSize_step c call)

/-- A hit is an embedding that was put for the pair, there are never more than the maximum, and
they are the ones used last. -/
def MemorySound (ε : Type) (maxSize : ℤ) (P : Set (Str × Str)) : Prop :=
  ∀ calls : List (Call ε), (∀ call ∈ calls, call.Over P) →
    let c := after (.init maxSize) calls
    (∀ query model e, (model, query) ∈ P → (c.get query model).1 = some e →
      .set query model e ∈ calls) ∧
    (c.store.size : ℤ) ≤ maxSize ∧
    c.store.keys = (usesAfter (.init maxSize) [] calls).dedup.rtake maxSize.toNat

/-- The embedding of a hit was put under the key. -/
theorem exists_set_of_get {maxSize : ℤ} {calls : List (Call ε)} {query model : Str} {e : ε}
    (h : ((after (.init maxSize) calls).get query model).1 = some e) :
    ∃ query' model', .set query' model' e ∈ calls ∧ key (model, query) = key (model', query') := by
  have hholds := (Holds.init maxSize).after calls
  rw [QueryEmbeddingCache.get] at h
  split at h
  · rename_i e' hk
    obtain rfl : e' = e := Option.some.inj h
    exact hholds.put _ _ hk
  · cases h

theorem get_of_init_set {maxSize : ℤ} (hmax : 0 < maxSize) (p : Str × Str) (query model : Str)
    (e : ε) (h : key p = key (model, query)) :
    ((after (.init maxSize) [.set p.2 p.1 e]).get query model).1 = some e := by
  have hput : (Dict.empty.put maxSize (key p) e).get? (key (model, query)) = some e := by
    have hfits : (((Dict.empty : Dict Str ε).keys.erase (key p)).length : ℤ) + 1 ≤ maxSize := by
      simpa [Dict.keys, Dict.empty] using Int.add_one_le_iff.2 hmax
    rw [Dict.get?_put_of_le hfits, if_pos h.symm]
  simp only [after, step, QueryEmbeddingCache.set, QueryEmbeddingCache.init,
    QueryEmbeddingCache.get, Prod.mk.eta, hput]

theorem memorySound_iff [Nonempty ε] {maxSize : ℤ} {P : Set (Str × Str)} :
    MemorySound ε maxSize P ↔ 0 ≤ maxSize ∧ (maxSize = 0 ∨ P.InjOn key) := by
  constructor
  · intro h
    have hnonneg : 0 ≤ maxSize := (h [] (by simp)).2.1
    refine ⟨hnonneg, or_iff_not_imp_left.2 fun hne => ?_⟩
    rintro ⟨m, q⟩ hp ⟨m', q'⟩ hp' heq
    obtain ⟨e⟩ := ‹Nonempty ε›
    have hover : ∀ call ∈ [Call.set q m e], call.Over P := fun call hcall => by
      rw [List.mem_singleton.1 hcall]
      exact hp
    have hfound := (h _ hover).1 q' m' e hp' (get_of_init_set (by omega) (m, q) q' m' e heq)
    rw [List.mem_singleton, Call.set.injEq] at hfound
    rw [hfound.1, hfound.2.1]
  · rintro ⟨hnonneg, hinj⟩ calls hover
    have hholds := (Holds.init maxSize).after calls
    have hrecent := hholds.recent
    rw [maxSize_after] at hrecent
    have hle := hrecent.length_le
    change _ ≤ maxSize.toNat at hle
    rw [Dict.length_keys] at hle
    refine ⟨fun query model e hp hget => ?_, by omega, hrecent.eq_rtake⟩
    rcases hinj with rfl | hinj
    · -- a cache of size 0 holds nothing
      have hempty : (after (.init 0) calls).store.items = [] :=
        List.length_eq_zero_iff.1 (Nat.le_zero.1 hle)
      simp [QueryEmbeddingCache.get, Dict.get?, hempty] at hget
    · obtain ⟨query', model', hmem, hkey⟩ := exists_set_of_get hget
      have hpair := hinj hp (hover _ hmem) hkey
      rw [Prod.mk.injEq] at hpair
      rw [hpair.1, hpair.2]
      exact hmem

end Memory

/-! ## In Redis -/

section Redis

variable {F : Type} (fl : Floats F)

/-- `List[float]`. -/
abbrev Embedding (F : Type) : Type := List (Flt F)

def Embedding.toJson (e : Embedding F) : Value F := .arr (e.map fun x => .atom (.float x))

theorem parse_toJson (e : Embedding F) : parse fl (print fl e.toJson) = some e.toJson := by
  have hmap : ∀ (f : PyStr → PyStr) g, Value.map f g e.toJson = e.toJson := fun f g => by
    rw [Embedding.toJson, Value.map_arr, List.map_map]
    exact congrArg Value.arr (List.map_congr_left fun x _ => Value.map_atom _)
  rw [parse_print, Value.join, hmap, Value.collapse, hmap]

/-- What happens to the shared store: calls by any process, and keys that are dropped. -/
inductive RedisCall (F : Type)
  | get (query model : Str)
  /-- `stored`: the value reaches the store, whether or not the call raises. -/
  | set (query model : Str) (e : Embedding F) (stored : Bool)
  | drop (keep : Str → Bool)

def RedisCall.Over (P : Set (Str × Str)) : RedisCall F → Prop
  | .get query model => (model, query) ∈ P
  | .set query model _ _ => (model, query) ∈ P
  | .drop _ => True

/-- `f"{self.key_prefix}{model}:{query}"`. -/
def redisKey (keyPrefix query model : Str) : Str := keyPrefix ++ key (model, query)

/-- A hit is `some` of what `json.loads` gives, `none` if that raises. -/
def redisGet (keyPrefix : Str) (store : Dict Str PyStr) (query model : Str) :
    Option (Option (Value F)) :=
  (store.get? (redisKey keyPrefix query model)).map (parse fl)

def redisStep (keyPrefix : Str) (store : Dict Str PyStr) : RedisCall F → Dict Str PyStr
  | .get _ _ => store
  | .set query model e stored =>
    if stored then store.set (redisKey keyPrefix query model) (print fl e.toJson) else store
  | .drop keep => store.filter fun k _ => keep k

def redisAfter (keyPrefix : Str) : Dict Str PyStr → List (RedisCall F) → Dict Str PyStr
  | store, [] => store
  | store, call :: calls => redisAfter keyPrefix (redisStep fl keyPrefix store call) calls

/-- Every value in the store was put under its key. -/
def Stored (keyPrefix : Str) (calls : List (RedisCall F)) (store : Dict Str PyStr) : Prop :=
  ∀ k raw, store.get? k = some raw → ∃ query model e, .set query model e true ∈ calls ∧
    k = redisKey keyPrefix query model ∧ raw = print fl e.toJson

variable {fl} {keyPrefix : Str}

theorem Stored.step {calls : List (RedisCall F)} {store : Dict Str PyStr}
    (h : Stored fl keyPrefix calls store) (call : RedisCall F) :
    Stored fl keyPrefix (calls ++ [call]) (redisStep fl keyPrefix store call) := by
  have hmono : Stored fl keyPrefix (calls ++ [call]) store := fun k raw hk => by
    obtain ⟨query, model, e, hmem, hrest⟩ := h k raw hk
    exact ⟨query, model, e, List.mem_append_left _ hmem, hrest⟩
  cases call with
  | get query model => exact hmono
  | set query model e stored =>
    cases stored with
    | false => exact hmono
    | true =>
      intro k raw hk
      simp only [redisStep, if_true, Dict.get?_set] at hk
      split_ifs at hk with heq
      · exact ⟨query, model, e, by simp, heq, (Option.some.inj hk).symm⟩
      · exact hmono k raw hk
  | drop keep =>
    intro k raw hk
    rw [redisStep, Dict.get?_filter, Option.filter_eq_some_iff] at hk
    exact hmono k raw hk.1

theorem Stored.after {calls : List (RedisCall F)} {store : Dict Str PyStr}
    (h : Stored fl keyPrefix calls store) (calls' : List (RedisCall F)) :
    Stored fl keyPrefix (calls ++ calls') (redisAfter fl keyPrefix store calls') := by
  induction calls' generalizing calls store with
  | nil => simpa [redisAfter] using h
  | cons call calls' ih => simpa [redisAfter] using ih (h.step call)

variable (fl) (keyPrefix) in
/-- A hit is an embedding that was put for the pair. -/
def RedisSound (P : Set (Str × Str)) : Prop :=
  ∀ calls : List (RedisCall F), (∀ call ∈ calls, call.Over P) →
    ∀ query model r, (model, query) ∈ P →
      redisGet fl keyPrefix (redisAfter fl keyPrefix Dict.empty calls) query model = some r →
      ∃ e, r = some e.toJson ∧ .set query model e true ∈ calls

theorem redisSound_iff {P : Set (Str × Str)} : RedisSound fl keyPrefix P ↔ P.InjOn key := by
  constructor
  · rintro h ⟨m, q⟩ hp ⟨m', q'⟩ hp' heq
    have hover : ∀ call ∈ [RedisCall.set q m ([] : Embedding F) true], call.Over P :=
      fun call hcall => by
        rw [List.mem_singleton.1 hcall]
        exact hp
    have hkey : redisKey keyPrefix q' m' = redisKey keyPrefix q m :=
      congrArg (keyPrefix ++ ·) heq.symm
    have hget : redisGet fl keyPrefix (redisAfter fl keyPrefix Dict.empty
        [.set q m ([] : Embedding F) true]) q' m' =
          some (parse fl (print fl (Embedding.toJson []))) := by
      simp [redisGet, redisAfter, redisStep, Dict.get?_set, hkey]
    obtain ⟨e, -, hmem⟩ := h _ hover q' m' _ hp' hget
    rw [List.mem_singleton, RedisCall.set.injEq] at hmem
    rw [hmem.1, hmem.2.1]
  · intro hinj calls hover query model r hp hget
    have hstored : Stored fl keyPrefix calls (redisAfter fl keyPrefix Dict.empty calls) := by
      have hempty : Stored fl keyPrefix [] Dict.empty := fun k raw h => by cases h
      exact hempty.after calls
    obtain ⟨raw, hraw, rfl⟩ := Option.map_eq_some_iff.1 hget
    obtain ⟨query', model', e, hmem, hkey, rfl⟩ := hstored _ raw hraw
    have hpair := hinj hp (hover _ hmem) (List.append_cancel_left hkey)
    rw [Prod.mk.injEq] at hpair
    rw [hpair.1, hpair.2]
    exact ⟨e, parse_toJson fl e, hmem⟩

/-- **Over the pairs of `P`, the cache in memory and that in Redis give back what was put for the
pair, and the one in memory keeps to its maximum and evicts the key used least recently, exactly
where no two pairs of `P` share a key and the maximum is not negative** (a maximum of 0 keeps
nothing that could be mixed up). -/
theorem cache_sound_iff (fl : Floats F) (keyPrefix : Str) (maxSize : ℤ) (P : Set (Str × Str)) :
    (MemorySound (Embedding F) maxSize P ↔ 0 ≤ maxSize ∧ (maxSize = 0 ∨ P.InjOn key)) ∧
      (RedisSound fl keyPrefix P ↔ P.InjOn key) :=
  ⟨memorySound_iff, redisSound_iff⟩

/-- The model `a:b` asked `c` and the model `a` asked `b:c` share a key. -/
theorem cache_mixes_pairs :
    ¬ MemorySound (Embedding ℕ) 1000 {(['a', ':', 'b'], ['c']), (['a'], ['b', ':', 'c'])} := by
  rw [memorySound_iff]
  rintro ⟨-, hzero | hinj⟩
  · cases hzero
  · have hpair : (['a', ':', 'b'], ['c']) = (['a'], ['b', ':', 'c']) :=
      hinj (by simp) (by simp) rfl
    cases hpair

end Redis

/-! ## The embedding of a query -/

section Query

variable {ε : Type}

/-- `_embed_query_cached` with the cache enabled; `answer` is what the embedder would give. -/
def embedQueryCached (c : QueryEmbeddingCache ε) (model query : Str) (answer : Option ε) :
    Option ε × QueryEmbeddingCache ε :=
  match c.get query model with
  | (some e, c) => (some e, c)
  | (none, c) =>
    match answer with
    | some e => (some e, c.set query model e)
    | none => (none, c)

/-- The answers to queries with one model, and the cache after them. -/
def embedQueries (c : QueryEmbeddingCache ε) (model : Str) :
    List (Str × Option ε) → List (Option ε) × QueryEmbeddingCache ε
  | [] => ([], c)
  | (query, answer) :: queries =>
    let (e, c) := embedQueryCached c model query answer
    let (es, c) := embedQueries c model queries
    (e :: es, c)

/-- Every embedding in the cache is the embedder's answer to the query it is kept under. -/
def Embedded (model : Str) (asked : List (Str × Option ε)) (c : QueryEmbeddingCache ε) : Prop :=
  ∀ k e, c.store.get? k = some e → ∃ query, (query, some e) ∈ asked ∧ k = key (model, query)

theorem embedQueryCached_step {model : Str} {asked : List (Str × Option ε)}
    {c : QueryEmbeddingCache ε} (h : Embedded model asked c) (query : Str) (answer : Option ε) :
    Embedded model (asked ++ [(query, answer)]) (embedQueryCached c model query answer).2 ∧
      ∀ e, (embedQueryCached c model query answer).1 = some e →
        (query, some e) ∈ asked ++ [(query, answer)] := by
  have hmono : Embedded model (asked ++ [(query, answer)]) c := fun k e hk => by
    obtain ⟨query', hmem, hkey⟩ := h k e hk
    exact ⟨query', List.mem_append_left _ hmem, hkey⟩
  cases hk : c.store.get? (key (model, query)) with
  | some e =>
    simp only [embedQueryCached, QueryEmbeddingCache.get_of_some hk]
    constructor
    · intro k e' hget
      dsimp only at hget
      rw [Dict.get?_moveToEnd] at hget
      exact hmono k e' hget
    · rintro e' he
      obtain rfl : e = e' := Option.some.inj he
      obtain ⟨query', hmem, hkey⟩ := hmono _ _ hk
      obtain rfl : query = query' := by simpa [key] using hkey
      exact hmem
  | none =>
    simp only [embedQueryCached, QueryEmbeddingCache.get_of_none hk]
    cases answer with
    | none => exact ⟨hmono, fun e he => by cases he⟩
    | some e =>
      constructor
      · intro k e' hget
        rcases Dict.get?_of_get?_put hget with ⟨rfl, rfl⟩ | ⟨-, hold⟩
        · exact ⟨query, by simp, rfl⟩
        · exact hmono k e' hold
      · rintro e' he
        obtain rfl : e = e' := Option.some.inj he
        simp

/-- **Within one instance every query is answered with an embedding of that query**, computed
then or before. -/
theorem embedQueries_spec {model : Str} {asked : List (Str × Option ε)}
    {c : QueryEmbeddingCache ε} (h : Embedded model asked c) (queries : List (Str × Option ε)) :
    List.Forall₂ (fun q e => ∀ x, e = some x → (q.1, some x) ∈ asked ++ queries) queries
      (embedQueries c model queries).1 := by
  induction queries generalizing asked c with
  | nil => exact .nil
  | cons q queries ih =>
    obtain ⟨query, answer⟩ := q
    obtain ⟨hnext, hanswer⟩ := embedQueryCached_step h query answer
    refine .cons (fun x hx => ?_) ?_
    · have hmem := hanswer x hx
      rw [List.append_cons]
      exact List.mem_append_left _ hmem
    · rw [List.append_cons]
      exact ih hnext

end Query

end RagLeap.EmbeddingCache
