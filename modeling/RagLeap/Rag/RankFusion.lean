import Mathlib.Order.WithBot
import RagLeap.Core.Retrieval
import RagLeap.Foundations.Dict

/-!
# Reciprocal rank fusion

The fused score of an item is the sum of `1 / (k + rank + 1)` over the lists that have it, in
binary64 numbers. `place` is the rank with a missing item last; an item placed at least as high as
another in every list has at least its score (`rrfScore_le`), and in lists of up to `939` items a
higher one even after rounding to six digits (`roundDigits_rrfScore_lt`).

`reciprocal_rank_fusion` of `ragleap/query_rewrite.py` sorts by the score as it is, and its keys in
the order in which they came in; so `before_reciprocalRankFusion` holds of lists of every length.
-/

namespace RagLeap.RankFusion

open Binary64 (fl)

/-! ## Scores -/

/-- `1.0 / (k + rank + 1)`. -/
def reciprocal (k rank : ℕ) : ℚ := fl (1 / fl (k + rank + 1 : ℕ))

/-- A score with the share of one list. -/
def addRank (k : ℕ) (score : ℚ) : Option ℕ → ℚ
  | none => score
  | some rank => fl (score + reciprocal k rank)

section

variable {κ : Type} [DecidableEq κ] {k : ℕ} {ls : List (List κ)} {a b : κ}

/-- The sum over the lists, from `0.0`. -/
def rrfScore (k : ℕ) (ls : List (List κ)) (x : κ) : ℚ :=
  ls.foldl (fun score l => addRank k score (l.idxOf? x)) 0

/-- A rank, or last where there is none. -/
def place (l : List κ) (x : κ) : WithTop ℕ := (l.idxOf? x).elim ⊤ fun rank => (rank : WithTop ℕ)

/-- At least as high in every list, and strictly higher in one. -/
def Dominates (ls : List (List κ)) (a b : κ) : Prop :=
  (∀ l ∈ ls, place l a ≤ place l b) ∧ ∃ l ∈ ls, place l a < place l b

theorem Dominates.ne (h : Dominates ls a b) : a ≠ b := by
  rintro rfl
  obtain ⟨-, l, -, hlt⟩ := h
  exact lt_irrefl _ hlt

theorem reciprocal_nonneg (k rank : ℕ) : 0 ≤ reciprocal k rank :=
  Binary64.fl_nonneg (div_nonneg zero_le_one (Binary64.fl_nonneg (Nat.cast_nonneg _)))

/-- A later rank counts for less. -/
theorem reciprocal_le {rank rank' : ℕ} (h : rank ≤ rank') :
    reciprocal k rank' ≤ reciprocal k rank := by
  have hpos : 0 < fl (k + rank + 1 : ℕ) := by
    refine lt_of_lt_of_le zero_lt_one ?_
    have hone := Binary64.fl_mono (show (1 : ℚ) ≤ (k + rank + 1 : ℕ) by exact_mod_cast (by omega))
    have hfl : fl (1 : ℕ) = (1 : ℕ) := Binary64.fl_natCast (by norm_num)
    rw [Nat.cast_one] at hfl
    rwa [hfl] at hone
  refine Binary64.fl_mono (div_le_div_of_nonneg_left zero_le_one hpos ?_)
  exact Binary64.fl_mono (by exact_mod_cast (by omega))

/-- Scores are sums that were rounded. -/
theorem addRank_rounded {score : ℚ} (hpos : 0 ≤ score) (h : fl score = score) (rank : Option ℕ) :
    0 ≤ addRank k score rank ∧ fl (addRank k score rank) = addRank k score rank := by
  cases rank with
  | none => exact ⟨hpos, h⟩
  | some rank =>
    have hsum := add_nonneg hpos (reciprocal_nonneg k rank)
    exact ⟨Binary64.fl_nonneg hsum, Binary64.fl_fl hsum⟩

/-- A list in which an item is placed higher does not give it less. -/
theorem addRank_le {s s' : ℚ} (hs : s ≤ s') (h : fl s' = s') {l : List κ}
    (hplace : place l a ≤ place l b) :
    addRank k s (l.idxOf? b) ≤ addRank k s' (l.idxOf? a) := by
  rw [place, place] at hplace
  cases ha : l.idxOf? a with
  | none =>
    cases hb : l.idxOf? b with
    | none => exact hs
    | some r =>
      rw [ha, hb] at hplace
      exact absurd hplace (by simp)
  | some r =>
    cases hb : l.idxOf? b with
    | none =>
      -- the other is not in the list at all
      refine hs.trans ?_
      change s' ≤ fl (s' + reciprocal k r)
      calc s' = fl s' := h.symm
        _ ≤ fl (s' + reciprocal k r) :=
          Binary64.fl_mono (le_add_of_nonneg_right (reciprocal_nonneg k r))
    | some r' =>
      rw [ha, hb] at hplace
      have hle : r ≤ r' := by simpa using hplace
      exact Binary64.fl_mono (add_le_add hs (reciprocal_le hle))

/-- An item placed at least as high as another in every list has at least its score. -/
theorem rrfScore_le (h : ∀ l ∈ ls, place l a ≤ place l b) : rrfScore k ls b ≤ rrfScore k ls a := by
  have hfold : ∀ s s' : ℚ, s ≤ s' → 0 ≤ s' → fl s' = s' →
      ls.foldl (fun score l => addRank k score (l.idxOf? b)) s ≤
        ls.foldl (fun score l => addRank k score (l.idxOf? a)) s' := by
    induction ls with
    | nil => exact fun s s' hs _ _ => hs
    | cons l ls ih =>
      intro s s' hs hpos hfl
      obtain ⟨hpos', hfl'⟩ := addRank_rounded (k := k) hpos hfl (l.idxOf? a)
      exact ih (fun l' hl' => h l' (List.mem_cons_of_mem l hl')) _ _
        (addRank_le hs hfl (h l List.mem_cons_self)) hpos' hfl'
  exact hfold 0 0 le_rfl le_rfl Binary64.fl_zero

/-! ## How far apart scores are -/

/-- The share of a rank without the rounding, for `k` of `60`. -/
def share (rank : Option ℕ) : ℚ := rank.elim 0 fun rank => 1 / (rank + 61)

theorem reciprocal_le_pow (rank : ℕ) : reciprocal 60 rank ≤ 2 ^ (-5 : ℤ) := by
  have hlarge : (2 : ℚ) ^ (5 : ℤ) ≤ fl (60 + rank + 1 : ℕ) := by
    have hmono := Binary64.fl_mono
      (show ((32 : ℕ) : ℚ) ≤ (60 + rank + 1 : ℕ) by exact_mod_cast (by omega))
    rw [Binary64.fl_natCast (by norm_num)] at hmono
    exact le_trans (by norm_num) hmono
  have hpos : (0 : ℚ) < fl (60 + rank + 1 : ℕ) := lt_of_lt_of_le (by positivity) hlarge
  have hle : 1 / fl (60 + rank + 1 : ℕ) ≤ 2 ^ (-5 : ℤ) := by
    rw [div_le_iff₀ hpos]
    refine le_trans (by norm_num) (mul_le_mul_of_nonneg_left hlarge (by positivity))
  refine Binary64.fl_le_zpow hle ((Binary64.lastPlace_le (by positivity) ?_).trans (by norm_num))
  exact hle.trans_lt (by norm_num)

/-- One more list adds a thirty-second at most. -/
theorem addRank_le_pow {s : ℚ} {e : ℤ} (hs : 0 ≤ s) (he : -52 ≤ e) (he' : e ≤ -1)
    (h : s + 2 ^ (-5 : ℤ) ≤ 2 ^ e) (rank : Option ℕ) : addRank 60 s rank ≤ 2 ^ e := by
  cases rank with
  | none => exact le_trans (le_add_of_nonneg_right (by positivity)) h
  | some rank =>
    have hsum : s + reciprocal 60 rank ≤ 2 ^ e := by linarith [reciprocal_le_pow rank]
    have hone : (2 : ℚ) ^ e < 1 := zpow_lt_one_of_neg₀ (by norm_num) (by omega)
    refine Binary64.fl_le_zpow hsum ((Binary64.lastPlace_le ?_ (hsum.trans_lt hone)).trans he)
    exact add_nonneg hs (reciprocal_nonneg 60 rank)

theorem abs_addRank_sub_le {s : ℚ} (hs : 0 ≤ s) (hs' : s ≤ 1 / 2) {rank : Option ℕ}
    (hrank : ∀ r ∈ rank, r < 2 ^ 52) : |addRank 60 s rank - (s + share rank)| ≤ 1 / 2 ^ 52 := by
  cases rank with
  | none =>
    change |s - (s + 0)| ≤ _
    rw [add_zero, sub_self, abs_zero]
    positivity
  | some r =>
    have hcast : fl (60 + r + 1 : ℕ) = (r + 61 : ℚ) := by
      rw [Binary64.fl_natCast (by have := hrank r rfl; omega)]
      push_cast
      ring
    have hreciprocal : |reciprocal 60 r - 1 / (r + 61)| ≤ 1 / 2 ^ 53 := by
      rw [reciprocal, hcast]
      refine Binary64.abs_fl_sub_le_of_lt_one (by positivity) ?_
      rw [div_lt_one (by positivity)]
      linarith [(Nat.cast_nonneg r : (0 : ℚ) ≤ r)]
    have hsmall := (reciprocal_le_pow r).trans_eq (by norm_num : (2 : ℚ) ^ (-5 : ℤ) = 1 / 32)
    have hsum := Binary64.abs_fl_sub_le_of_lt_one (add_nonneg hs (reciprocal_nonneg 60 r))
      (by linarith)
    change |fl (s + reciprocal 60 r) - (s + 1 / (r + 61))| ≤ _
    rw [abs_le] at *
    constructor <;> linarith [hsum.1, hsum.2, hreciprocal.1, hreciprocal.2]

theorem lt_of_idxOf? {l : List κ} {x : κ} {r : ℕ} (h : l.idxOf? x = some r) : r < l.length := by
  rw [List.idxOf?, List.findIdx?_eq_some_iff_getElem] at h
  exact h.1

theorem share_le {l : List κ} (h : place l a ≤ place l b) :
    share (l.idxOf? b) ≤ share (l.idxOf? a) := by
  rw [place, place] at h
  cases ha : l.idxOf? a with
  | none =>
    cases hb : l.idxOf? b with
    | none => exact le_rfl
    | some r =>
      rw [ha, hb] at h
      exact absurd h (by simp)
  | some r =>
    cases hb : l.idxOf? b with
    | none =>
      change (0 : ℚ) ≤ 1 / (r + 61)
      positivity
    | some r' =>
      rw [ha, hb] at h
      have hle : r ≤ r' := by simpa using h
      refine div_le_div_of_nonneg_left zero_le_one (by positivity) ?_
      exact_mod_cast Nat.add_le_add_right hle 61

/-- One place among the first `939` is worth more than a millionth. -/
theorem share_add_lt {l : List κ} (hlength : l.length ≤ 939) (h : place l a < place l b) :
    share (l.idxOf? b) + 1 / 997002 ≤ share (l.idxOf? a) := by
  rw [place, place] at h
  cases ha : l.idxOf? a with
  | none =>
    rw [ha] at h
    exact absurd h (by simp)
  | some r =>
    have hr : r < l.length := lt_of_idxOf? ha
    cases hb : l.idxOf? b with
    | none =>
      change (0 : ℚ) + 1 / 997002 ≤ 1 / (r + 61)
      rw [zero_add]
      refine div_le_div_of_nonneg_left zero_le_one (by positivity) ?_
      exact_mod_cast (by omega : r + 61 ≤ 997002)
    | some r' =>
      rw [ha, hb] at h
      have hlt : r < r' := by simpa using h
      have hr' : r' < l.length := lt_of_idxOf? hb
      have hnext : share (some r') ≤ 1 / (r + 62) := by
        refine div_le_div_of_nonneg_left zero_le_one (by positivity) ?_
        exact_mod_cast (by omega : r + 62 ≤ r' + 61)
      have hgap : (1 : ℚ) / (r + 62) + 1 / 997002 ≤ 1 / (r + 61) := by
        have hbound : (r : ℚ) ≤ 937 := by exact_mod_cast (by omega)
        have hnonneg : (0 : ℚ) ≤ r := Nat.cast_nonneg r
        rw [div_add_div _ _ (by positivity) (by norm_num), div_le_div_iff₀ (by positivity)
          (by positivity)]
        nlinarith
      exact (add_le_add_left hnext _).trans hgap

/-- Two lists give a sixteenth at most. -/
theorem rrfScore_le_pow (l l' : List κ) (x : κ) :
    0 ≤ rrfScore 60 [l, l'] x ∧ rrfScore 60 [l, l'] x ≤ 2 ^ (-4 : ℤ) := by
  obtain ⟨hpos, hfl⟩ := addRank_rounded (k := 60) le_rfl Binary64.fl_zero (l.idxOf? x)
  have hfirst := addRank_le_pow (e := -5) le_rfl (by norm_num) (by norm_num) (by norm_num)
    (l.idxOf? x)
  refine ⟨(addRank_rounded hpos hfl _).1, ?_⟩
  exact addRank_le_pow hpos (by norm_num) (by norm_num)
    ((add_le_add_left hfirst _).trans_eq (by norm_num)) (l'.idxOf? x)

theorem abs_rrfScore_sub_le {l l' : List κ} {x : κ} (hrank : ∀ r ∈ l.idxOf? x, r < 2 ^ 52)
    (hrank' : ∀ r ∈ l'.idxOf? x, r < 2 ^ 52) :
    |rrfScore 60 [l, l'] x - (share (l.idxOf? x) + share (l'.idxOf? x))| ≤ 2 / 2 ^ 52 := by
  have hpos := (addRank_rounded (k := 60) le_rfl Binary64.fl_zero (l.idxOf? x)).1
  have hfirst := addRank_le_pow (e := -5) le_rfl (by norm_num) (by norm_num) (by norm_num)
    (l.idxOf? x)
  have herror := abs_addRank_sub_le le_rfl (by norm_num) hrank
  have herror' := abs_addRank_sub_le hpos (hfirst.trans (by norm_num)) hrank'
  change |addRank 60 (addRank 60 0 (l.idxOf? x)) (l'.idxOf? x) - _| ≤ _
  rw [abs_le] at *
  constructor <;> linarith [herror.1, herror.2, herror'.1, herror'.2]

/-- Of two lists of `939` items or less, an item that dominates another has more even when the
scores are rounded to six digits. -/
theorem roundDigits_rrfScore_lt {l l' : List κ} (hlength : l.length ≤ 939)
    (hlength' : l'.length ≤ 939) (h : Dominates [l, l'] a b) :
    Binary64.roundDigits 6 (rrfScore 60 [l, l'] b) <
      Binary64.roundDigits 6 (rrfScore 60 [l, l'] a) := by
  obtain ⟨hall, m, hm, hlt⟩ := h
  have hgap : share (l.idxOf? b) + share (l'.idxOf? b) + 1 / 997002 ≤
      share (l.idxOf? a) + share (l'.idxOf? a) := by
    have hle := share_le (hall l (by simp))
    have hle' := share_le (hall l' (by simp))
    rcases List.mem_pair.1 hm with rfl | rfl
    · linarith [share_add_lt hlength hlt]
    · linarith [share_add_lt hlength' hlt]
  have hrank : ∀ {l : List κ} {x : κ}, l.length ≤ 939 → ∀ r ∈ l.idxOf? x, r < 2 ^ 52 := by
    intro l x hlength r hr
    have := lt_of_idxOf? hr
    omega
  have herror := (abs_le.1 (abs_rrfScore_sub_le (hrank (x := a) hlength) (hrank hlength'))).1
  have herror' := (abs_le.1 (abs_rrfScore_sub_le (hrank (x := b) hlength) (hrank hlength'))).2
  have hhigh := (rrfScore_le_pow l l' a).2.trans (by norm_num : (2 : ℚ) ^ (-4 : ℤ) ≤ 1 / 2)
  refine Binary64.roundDigits_lt (by norm_num) (by norm_num) (rrfScore_le_pow l l' b).1 hhigh ?_
  linarith

end

/-! ## Fusing lists of chunks -/

/-- A chunk id, or the document and the index of a chunk without one. -/
inductive Key
  | id (chunkId : Str)
  | position (documentId : Str) (chunkIndex : ℤ)
  deriving DecidableEq

/-- `chunk.get("chunk_id") or (chunk.get("document_id"), chunk.get("chunk_index"))`. -/
def key (c : Retrieval.Chunk) : Key :=
  if c.chunkId ≠ [] then .id c.chunkId else .position c.documentId c.chunkIndex

/-- The two dictionaries of `reciprocal_rank_fusion`. -/
structure Fusion where
  scores : Dict Key ℚ
  chunkByKey : Dict Key Retrieval.Chunk

/-- The loop body. -/
def Fusion.add (k : ℕ) (s : Fusion) (e : Retrieval.Chunk × ℕ) : Fusion where
  scores := s.scores.set (key e.1) (fl ((s.scores.get? (key e.1)).getD 0 + reciprocal k e.2))
  chunkByKey :=
    if (s.chunkByKey.get? (key e.1)).isSome then s.chunkByKey else s.chunkByKey.set (key e.1) e.1

def fusion (k : ℕ) (rankedLists : List (List Retrieval.Chunk)) : Fusion :=
  (rankedLists.flatMap List.zipIdx).foldl (Fusion.add k) ⟨.empty, .empty⟩

def reciprocalRankFusion (rankedLists : List (List Retrieval.Chunk)) (k : ℕ) :
    List Retrieval.Chunk :=
  let s := fusion k rankedLists
  let rankedKeys := sortDesc (fun x => (s.scores.get? x).getD 0) (s.scores.items.map Prod.fst)
  rankedKeys.filterMap s.chunkByKey.get?

section

variable {k : ℕ} {s : Fusion} {a b : Key} {entries : List (Retrieval.Chunk × ℕ)}

/-- The keys the dictionary of the scores holds, in the order in which they came in. -/
def Fusion.keys (s : Fusion) : List Key := s.scores.items.map Prod.fst

theorem keys_add (e : Retrieval.Chunk × ℕ) : (s.add k e).keys =
    if key e.1 ∈ s.keys then s.keys else s.keys ++ [key e.1] := Dict.map_fst_set _ _ _

/-- If some `a` came before every `b`, the key `a` is before the key `b`. -/
theorem before_keys_run (hstart : b ∈ s.keys → Before s.keys a b)
    (h : ∀ pre post, (entries.map fun e => key e.1) = pre ++ b :: post → a ∈ pre ∨ a ∈ s.keys)
    (hb : b ∈ (entries.foldl (Fusion.add k) s).keys) :
    Before (entries.foldl (Fusion.add k) s).keys a b := by
  induction entries generalizing s with
  | nil => exact hstart hb
  | cons e entries ih =>
    refine ih ?_ ?_ hb
    · rw [keys_add]
      split_ifs with hold
      · exact hstart
      · intro hmem
        rcases List.mem_append.1 hmem with hmem | hmem
        · exact (hstart hmem).trans (List.sublist_append_left _ _)
        · -- the key `b` comes in, after `a`
          obtain rfl := List.mem_singleton.1 hmem
          have ha := (h [] (entries.map fun e => key e.1) rfl).resolve_left List.not_mem_nil
          exact (List.singleton_sublist.2 ha).append (List.Sublist.refl _)
    · intro pre post hsplit
      have hnext := h (key e.1 :: pre) post (by rw [List.map_cons, hsplit, List.cons_append])
      rw [List.mem_cons] at hnext
      have hkeys : a = key e.1 ∨ a ∈ s.keys → a ∈ (s.add k e).keys := by
        rw [keys_add]
        split_ifs with hold
        · exact fun ha => ha.elim (fun heq => heq ▸ hold) id
        · exact fun ha => List.mem_append.2 (ha.symm.imp id List.mem_singleton.2)
      rcases hnext with (heq | hpre) | hmem
      · exact .inr (hkeys (.inl heq))
      · exact .inl hpre
      · exact .inr (hkeys (.inr hmem))

/-- The score of a key so far. -/
def Fusion.score (s : Fusion) (x : Key) : ℚ := (s.scores.get? x).getD 0

theorem score_add (e : Retrieval.Chunk × ℕ) (x : Key) : (s.add k e).score x =
    if x = key e.1 then fl (s.score x + reciprocal k e.2) else s.score x := by
  rw [Fusion.score, Fusion.add]
  dsimp only
  rw [Dict.get?_set]
  split_ifs with h
  · rw [h, Option.getD_some, Fusion.score]
  · rfl

/-- A list in which no key repeats adds its rank to a score. -/
theorem score_run_list {l : List Retrieval.Chunk} (hn : (l.map key).Nodup) (n : ℕ) (x : Key) :
    ((l.zipIdx n).foldl (Fusion.add k) s).score x =
      addRank k (s.score x) (((l.map key).idxOf? x).map (n + ·)) := by
  induction l generalizing s n with
  | nil => rfl
  | cons c l ih =>
    rw [List.map_cons, List.nodup_cons] at hn
    rw [List.zipIdx_cons, List.foldl_cons, ih hn.2, score_add, List.map_cons, List.idxOf?_cons]
    by_cases h : x = key c
    · subst h
      have hnone : (l.map key).idxOf? (key c) = none := List.idxOf?_eq_none_iff.2 hn.1
      rw [if_pos rfl, hnone]
      simp [addRank]
    · rw [if_neg h]
      have hne : (key c == x) = false := beq_eq_false_iff_ne.2 (Ne.symm h)
      rw [hne]
      congr 1
      cases (l.map key).idxOf? x with
      | none => rfl
      | some r => simp [Nat.add_assoc, Nat.add_comm 1]

theorem score_fusion {rankedLists : List (List Retrieval.Chunk)}
    (hn : ∀ l ∈ rankedLists, (l.map key).Nodup) (x : Key) :
    (fusion k rankedLists).score x = rrfScore k (rankedLists.map (List.map key)) x := by
  have hfold : ∀ s : Fusion, ((rankedLists.flatMap List.zipIdx).foldl (Fusion.add k) s).score x =
      (rankedLists.map (List.map key)).foldl (fun score l => addRank k score (l.idxOf? x))
        (s.score x) := by
    induction rankedLists with
    | nil => exact fun s => rfl
    | cons l rankedLists ih =>
      intro s
      rw [List.flatMap_cons, List.foldl_append, ih fun l' hl' => hn l' (List.mem_cons_of_mem l hl'),
        score_run_list (hn l List.mem_cons_self), List.map_cons, List.foldl_cons]
      simp
  exact hfold _

/-- The chunks are kept under the keys of the scores, each under its own. -/
structure Fusion.Consistent (s : Fusion) : Prop where
  key_eq : ∀ x c, s.chunkByKey.get? x = some c → key c = x
  isSome_iff : ∀ x, (s.chunkByKey.get? x).isSome ↔ x ∈ s.keys

theorem Fusion.Consistent.add (h : s.Consistent) (e : Retrieval.Chunk × ℕ) :
    (s.add k e).Consistent := by
  by_cases hold : (s.chunkByKey.get? (key e.1)).isSome = true
  · have hkept : (s.add k e).chunkByKey = s.chunkByKey := if_pos hold
    refine ⟨hkept ▸ h.key_eq, fun x => ?_⟩
    rw [hkept, keys_add, if_pos ((h.isSome_iff _).1 hold)]
    exact h.isSome_iff x
  · have hset : (s.add k e).chunkByKey = s.chunkByKey.set (key e.1) e.1 := if_neg hold
    constructor
    · intro x c hx
      rw [hset, Dict.get?_set] at hx
      split_ifs at hx with heq
      · rw [← Option.some.inj hx, heq]
      · exact h.key_eq x c hx
    · intro x
      rw [hset, Dict.get?_set, keys_add, if_neg (mt (h.isSome_iff _).2 hold), List.mem_append,
        List.mem_singleton]
      split_ifs with heq
      · exact iff_of_true rfl (.inr heq)
      · rw [h.isSome_iff]
        exact (or_iff_left heq).symm

theorem consistent_fusion (k : ℕ) (rankedLists : List (List Retrieval.Chunk)) :
    (fusion k rankedLists).Consistent := by
  refine List.foldlRecOn (motive := Fusion.Consistent) _ _ ⟨nofun, fun x => ?_⟩
    fun s h e _ => h.add e
  exact iff_of_false nofun List.not_mem_nil

/-- The keys of the result. -/
theorem map_key_reciprocalRankFusion (rankedLists : List (List Retrieval.Chunk)) (k : ℕ) :
    (reciprocalRankFusion rankedLists k).map key =
      sortDesc (fusion k rankedLists).score (fusion k rankedLists).keys := by
  have h := consistent_fusion k rankedLists
  have hmem : ∀ x ∈ sortDesc (fusion k rankedLists).score (fusion k rankedLists).keys,
      x ∈ (fusion k rankedLists).keys := fun x hx => (mem_sortDesc _).1 hx
  change (List.filterMap _ (sortDesc (fusion k rankedLists).score _)).map key = _
  rw [List.map_filterMap]
  refine (List.filterMap_congr fun x hx => ?_).trans List.filterMap_some
  obtain ⟨c, hc⟩ := Option.isSome_iff_exists.1 ((h.isSome_iff x).2 (hmem x hx))
  rw [hc, Option.map_some, h.key_eq x c hc]

theorem idxOf?_append {κ : Type} [DecidableEq κ] (l l' : List κ) (x : κ) :
    (l ++ l').idxOf? x = (l.idxOf? x).or ((l'.idxOf? x).map (· + l.length)) :=
  List.findIdx?_append

/-- An item placed at least as high as another comes in before it. -/
theorem mem_of_split {κ : Type} [DecidableEq κ] {l pre post : List κ} {a b : κ} (hn : l.Nodup)
    (hne : a ≠ b) (h : place l a ≤ place l b) (hsplit : l = pre ++ b :: post) : a ∈ pre := by
  subst hsplit
  have hb : b ∉ pre := fun hb => by
    have := (List.nodup_append.1 hn).2.2 b hb b List.mem_cons_self
    exact this rfl
  by_contra ha
  have hnone : pre.idxOf? b = none := List.idxOf?_eq_none_iff.2 hb
  have hnone' : pre.idxOf? a = none := List.idxOf?_eq_none_iff.2 ha
  have hbeq : (b == a) = false := beq_eq_false_iff_ne.2 hne.symm
  rw [place, place, idxOf?_append, idxOf?_append, hnone, hnone', List.idxOf?_cons, List.idxOf?_cons,
    beq_self_eq_true, hbeq] at h
  cases hpost : post.idxOf? a with
  | none =>
    rw [hpost] at h
    exact absurd h (by simp)
  | some r =>
    rw [hpost] at h
    have hle : ((r + 1 + pre.length : ℕ) : WithTop ℕ) ≤ (0 + pre.length : ℕ) := h
    have hle' : r + 1 + pre.length ≤ 0 + pre.length := by exact_mod_cast hle
    omega

theorem mem_of_flatten_split {κ : Type} [DecidableEq κ] {ls : List (List κ)} {pre post : List κ}
    {a b : κ} (hn : ∀ l ∈ ls, l.Nodup) (hne : a ≠ b) (h : ∀ l ∈ ls, place l a ≤ place l b)
    (hsplit : ls.flatten = pre ++ b :: post) : a ∈ pre := by
  induction ls generalizing pre with
  | nil => simp at hsplit
  | cons l ls ih =>
    rw [List.flatten_cons] at hsplit
    have hrest : ∀ {pre'}, ls.flatten = pre' ++ b :: post → a ∈ pre' := fun hsplit' =>
      ih (fun l' hl' => hn l' (List.mem_cons_of_mem l hl'))
        (fun l' hl' => h l' (List.mem_cons_of_mem l hl')) hsplit'
    rcases List.append_eq_append_iff.1 hsplit with ⟨rest, rfl, hls⟩ | ⟨rest, hl, hls⟩
    · exact List.mem_append_right l (hrest hls)
    · cases rest with
      | nil => exact absurd (@hrest [] hls.symm) List.not_mem_nil
      | cons x rest =>
        obtain ⟨rfl, -⟩ := List.cons.inj hls
        exact mem_of_split (hn l List.mem_cons_self) hne (h l List.mem_cons_self) hl

/-- Each key comes once in the result, and a key that dominates another in the lists stands before
it: where the scores are equal the keys are in the order in which they came in. -/
theorem before_reciprocalRankFusion {rankedLists : List (List Retrieval.Chunk)}
    (hn : ∀ l ∈ rankedLists, (l.map key).Nodup) (k : ℕ) {a b : Key}
    (h : Dominates (rankedLists.map (List.map key)) a b)
    (hb : b ∈ (reciprocalRankFusion rankedLists k).map key) :
    Before ((reciprocalRankFusion rankedLists k).map key) a b := by
  rw [map_key_reciprocalRankFusion] at hb ⊢
  have hbkeys := (mem_sortDesc _).1 hb
  have hkeys : Before (fusion k rankedLists).keys a b := by
    refine before_keys_run (fun hmem => absurd hmem List.not_mem_nil) (fun pre post hsplit => ?_)
      hbkeys
    have hflat : ((rankedLists.flatMap List.zipIdx).map fun e => key e.1) =
        (rankedLists.map (List.map key)).flatten := by
      rw [List.map_flatMap, List.flatten_eq_flatMap, List.flatMap_map]
      congr 1
      funext l
      exact (List.map_map (f := Prod.fst) (g := key) (l := l.zipIdx)).symm.trans
        (by rw [List.zipIdx_map_fst]; rfl)
    rw [hflat] at hsplit
    refine .inl (mem_of_flatten_split ?_ h.ne h.1 hsplit)
    simpa using hn
  have hnodup : (fusion k rankedLists).keys.Nodup := (fusion k rankedLists).scores.nodup
  rw [before_sortDesc_iff _ hnodup hkeys.left_mem hbkeys h.ne, score_fusion hn, score_fusion hn]
  exact (rrfScore_le h.1).lt_or_eq.imp_right fun heq => ⟨heq, hkeys⟩

end

end RagLeap.RankFusion
