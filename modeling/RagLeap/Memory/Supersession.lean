import RagLeap.Memory.Store

/-!
# Supersession links

`supersede` links the old entry to the new one and keeps both; `forget`, `erase` and
`sweep_expired` delete rows without looking at the links. The links of a store are sound (`Sound`)
when each leads to a row of the store, following them ends in a row that is not superseded, and no
row replaces two. They stay sound in a run exactly when no deletion takes a row and leaves the row
it replaces (`Spares`).
-/

namespace RagLeap.Memory

open Security

variable {m m' : Memories}

/-- Following the links from the row ends in a row that is not superseded. -/
inductive Ends (m : Memories) : Row → Prop
  | here {r : Row} (h : r.supersededBy = none) : Ends m r
  | next {r r' : Row} (h : r.supersededBy = some r'.id) (hmem : r' ∈ m.rows) (hends : Ends m r') :
      Ends m r

/-- The links of the store lead somewhere. -/
structure Sound (env : Env) (m : Memories) : Prop where
  target : ∀ r ∈ m.rows, ∀ id, r.supersededBy = some id → ∃ r' ∈ m.rows, r'.id = id
  ends : ∀ r ∈ m.rows, Ends m r
  unique : ∀ r ∈ m.rows, ∀ r' ∈ m.rows, ∀ id, r.supersededBy = some id →
    r'.supersededBy = some id → r = r'
  /-- What a search finds only when asked for superseded entries has its replacement there. -/
  hidden : ∀ w scope (q : Query) kinds minTrust,
    ∀ r ∈ candidates env w scope { q with includeSuperseded := true } kinds minTrust m,
      r ∉ candidates env w scope { q with includeSuperseded := false } kinds minTrust m →
      ∃ r' ∈ m.rows, r.supersededBy = some r'.id

/-- The operation deletes no row that replaces a row it leaves. -/
def Spares (w : World) (op : Op) (m : Memories) : Prop :=
  ∀ r ∈ m.rows, op.deletes w r = false →
    ∀ r' ∈ m.rows, r.supersededBy = some r'.id → op.deletes w r' = false

/-! ## The links go forward -/

/-- Every link leads to a later row. -/
def Forward : List Row → Prop
  | [] => True
  | r :: rs => (∀ id, r.supersededBy = some id → ∃ r' ∈ rs, r'.id = id) ∧ Forward rs

/-- No row replaces two. -/
def Unique (rows : List Row) : Prop :=
  ∀ r ∈ rows, ∀ r' ∈ rows, ∀ id, r.supersededBy = some id → r'.supersededBy = some id → r = r'

theorem Forward.target {rows : List Row} (h : Forward rows) {r : Row} (hr : r ∈ rows) {id : Str}
    (hid : r.supersededBy = some id) : ∃ r' ∈ rows, r'.id = id := by
  induction rows with
  | nil => cases hr
  | cons r₁ rs ih =>
    obtain ⟨hlink, hrest⟩ := h
    rcases List.mem_cons.1 hr with rfl | hr
    · obtain ⟨r', hr', heq⟩ := hlink id hid
      exact ⟨r', List.mem_cons_of_mem _ hr', heq⟩
    · obtain ⟨r', hr', heq⟩ := ih hrest hr
      exact ⟨r', List.mem_cons_of_mem _ hr', heq⟩

/-- Induction from the end of the table: the links out of a suffix stay in it. -/
theorem Forward.ends {rows : List Row} (h : Forward rows) (hsub : rows ⊆ m.rows) :
    ∀ r ∈ rows, Ends m r := by
  induction rows with
  | nil =>
    intro r hr
    cases hr
  | cons r₁ rs ih =>
    obtain ⟨hlink, hrest⟩ := h
    have hsub' : rs ⊆ m.rows := fun r hr => hsub (List.mem_cons_of_mem _ hr)
    intro r hr
    rcases List.mem_cons.1 hr with rfl | hr
    · cases hs : r.supersededBy with
      | none => exact .here hs
      | some id =>
        obtain ⟨r', hr', rfl⟩ := hlink id hs
        exact .next hs (hsub' hr') (ih hrest hsub' r' hr')
    · exact ih hrest hsub' r hr

theorem Forward.concat {rows : List Row} (h : Forward rows) {row : Row}
    (hrow : row.supersededBy = none) : Forward (rows ++ [row]) := by
  induction rows with
  | nil =>
    refine ⟨?_, trivial⟩
    intro id hid
    rw [hrow] at hid
    cases hid
  | cons r rs ih =>
    refine ⟨?_, ih h.2⟩
    intro id hid
    obtain ⟨r', hr', heq⟩ := h.1 id hid
    exact ⟨r', List.mem_append_left _ hr', heq⟩

/-- Deleting rows keeps the links of the others, if no replacement of theirs goes. -/
theorem Forward.filter {rows : List Row} (h : Forward rows) {p : Row → Bool}
    (hp : ∀ r ∈ rows, p r = true → ∀ r' ∈ rows, r.supersededBy = some r'.id → p r' = true) :
    Forward (rows.filter p) := by
  induction rows with
  | nil => trivial
  | cons r rs ih =>
    have hrest : Forward (rs.filter p) := ih h.2 fun r₁ h₁ hkeep r₂ h₂ =>
      hp r₁ (List.mem_cons_of_mem _ h₁) hkeep r₂ (List.mem_cons_of_mem _ h₂)
    cases hr : p r with
    | false => rwa [List.filter_cons_of_neg (by simp [hr])]
    | true =>
      rw [List.filter_cons_of_pos hr]
      refine ⟨?_, hrest⟩
      intro id hid
      obtain ⟨r', hr', rfl⟩ := h.1 id hid
      have hkeep := hp r List.mem_cons_self hr r' (List.mem_cons_of_mem _ hr') hid
      exact ⟨r', List.mem_filter.2 ⟨hr', hkeep⟩, rfl⟩

theorem supersededBy_redirect {newId oldId id : Str} {r : Row}
    (h : (redirect newId oldId r).supersededBy = some id) :
    id = newId ∧ r.id = oldId ∨ r.supersededBy = some id ∧ r.id ≠ oldId := by
  unfold redirect at h
  split at h
  case isTrue hold => exact .inl ⟨(Option.some.inj h).symm, hold⟩
  case isFalse hold => exact .inr ⟨h, hold⟩

/-- A row may be linked to the last row. -/
theorem Forward.redirect {rows : List Row} (h : Forward rows) {row : Row} {oldId : Str}
    (hrow : row.supersededBy = none) (hne : row.id ≠ oldId) :
    Forward ((rows ++ [row]).map (redirect row.id oldId)) := by
  induction rows with
  | nil =>
    have hlast : Memory.redirect row.id oldId row = row := redirect_of_ne hne
    refine ⟨?_, trivial⟩
    intro id hid
    rw [hlast, hrow] at hid
    cases hid
  | cons r rs ih =>
    refine ⟨?_, ih h.2⟩
    intro id hid
    rcases supersededBy_redirect hid with ⟨rfl, -⟩ | ⟨hid, -⟩
    · exact ⟨_, List.mem_map_of_mem (by simp), redirect_id _ _ _⟩
    · obtain ⟨r', hr', heq⟩ := h.1 id hid
      exact ⟨_, List.mem_map_of_mem (List.mem_append_left _ hr'), (redirect_id _ _ _).trans heq⟩

/-! ## One operation -/

/-- What the run keeps: links go forward, and no row replaces two. -/
structure Linked (m : Memories) : Prop where
  forward : Forward m.rows
  unique : Unique m.rows

theorem linked_empty : Linked .empty := ⟨trivial, fun _ hr => nomatch hr⟩

/-- A row that is not superseded replaces nothing new. -/
theorem Linked.insert (h : Linked m) {row : Row} (hrow : row.supersededBy = none)
    (hins : m.insert row = some m') : Linked m' := by
  obtain ⟨-, hrows⟩ := Memories.rows_insert hins
  constructor
  · rw [hrows]
    exact h.forward.concat hrow
  · have hold : ∀ r ∈ m'.rows, ∀ id, r.supersededBy = some id → r ∈ m.rows := by
      intro r hr id hid
      rw [hrows] at hr
      rcases List.mem_append.1 hr with hr | hr
      · exact hr
      · rw [List.mem_singleton.1 hr, hrow] at hid
        cases hid
    intro r hr r' hr' id hid hid'
    exact h.unique r (hold r hr id hid) r' (hold r' hr' id hid') id hid hid'

/-- No link leads to the fresh id, so the redirected link is the only one that does. -/
theorem Linked.setSuperseded (h : Linked m) {old row : Row} (hold : old ∈ m.rows)
    (hrow : row.supersededBy = none) (hins : m.insert row = some m') :
    Linked (m'.setSuperseded row.id old.id) := by
  obtain ⟨hfresh, hrows⟩ := Memories.rows_insert hins
  have hne : row.id ≠ old.id := fun heq => hfresh (heq ▸ List.mem_map_of_mem hold)
  have hlinked := h.insert hrow hins
  have hnotnew : ∀ r ∈ m'.rows, r.supersededBy ≠ some row.id := by
    intro r hr hid
    rw [hrows] at hr
    rcases List.mem_append.1 hr with hr | hr
    · obtain ⟨r', hr', heq⟩ := h.forward.target hr hid
      exact hfresh (heq ▸ List.mem_map_of_mem hr')
    · rw [List.mem_singleton.1 hr, hrow] at hid
      cases hid
  constructor
  · show Forward (m'.rows.map (redirect row.id old.id))
    rw [hrows]
    exact h.forward.redirect hrow hne
  · intro _ hmem _ hmem' id hid hid'
    obtain ⟨r, hr, rfl⟩ := List.mem_map.1 hmem
    obtain ⟨r', hr', rfl⟩ := List.mem_map.1 hmem'
    rcases supersededBy_redirect hid with ⟨rfl, hr₁⟩ | ⟨hid, hr₁⟩
    · rcases supersededBy_redirect hid' with ⟨-, hr₂⟩ | ⟨hid', -⟩
      · rw [Memories.eq_of_id_eq hr hr' (hr₁.trans hr₂.symm)]
      · exact absurd hid' (hnotnew r' hr')
    · rcases supersededBy_redirect hid' with ⟨rfl, -⟩ | ⟨hid', -⟩
      · exact absurd hid (hnotnew r hr)
      · rw [hlinked.unique r hr r' hr' id hid hid']

theorem Linked.delete (h : Linked m) {w : World} {op : Op} (hspares : Spares w op m) :
    Linked (m.delete (op.deletes w)) := by
  constructor
  · refine h.forward.filter ?_
    intro r hr hkeep r' hr' hlink
    rw [hspares r hr (by simpa using hkeep) r' hr' hlink]
    rfl
  · intro r hr r' hr' id hid hid'
    exact h.unique r (List.mem_filter.1 hr).1 r' (List.mem_filter.1 hr').1 id hid hid'

/-- **One operation that spares the replacements keeps the links.** -/
theorem Linked.exec (env : Env) (h : Linked m) {w : World} {op : Op} (hspares : Spares w op m) :
    Linked (exec env w op m).2 := by
  have hchange := exec_change env w op m
  generalize (Memory.exec env w op m).2 = m₂ at hchange ⊢
  cases hchange with
  | deleted => exact h.delete hspares
  | added _ hcurrent hins _ => exact h.insert hcurrent hins
  | superseded hold _ _ _ hcurrent' hins _ => exact h.setSuperseded hold hcurrent' hins

/-- Sound links after an operation mean that it spared the replacements. -/
theorem spares_of_sound {env : Env} {w : World} {op : Op}
    (h : Sound env (Memory.exec env w op m).2) : Spares w op m := by
  have hchange := exec_change env w op m
  generalize (Memory.exec env w op m).2 = m₂ at h hchange
  intro r hr hkeep r' hr' hlink
  cases hchange with
  | deleted =>
    have hrow : r ∈ (m.delete (op.deletes w)).rows := List.mem_filter.2 ⟨hr, by simp [hkeep]⟩
    obtain ⟨r₂, hr₂, heq⟩ := h.target r hrow r'.id hlink
    obtain ⟨hmem, hkept⟩ := List.mem_filter.1 hr₂
    rw [← Memories.eq_of_id_eq hmem hr' heq]
    simpa using hkept
  | added _ _ _ hkept => exact hkept r'
  | superseded _ _ _ _ _ _ hkept => exact hkept r'

theorem Linked.sound (env : Env) (h : Linked m) : Sound env m where
  target _ hr _ hid := h.forward.target hr hid
  ends := h.forward.ends (List.Subset.refl _)
  unique := h.unique
  hidden w scope q kinds minTrust r hr hnot := by
    unfold candidates at hr hnot
    rw [List.mem_filter] at hr hnot
    simp only [Bool.and_eq_true] at hr hnot
    cases hs : r.supersededBy with
    | none =>
      refine absurd ⟨hr.1, ⟨hr.2.1.1, ?_⟩, hr.2.2⟩ hnot
      simp [hs]
    | some id =>
      obtain ⟨r', hr', rfl⟩ := h.forward.target hr.1 hs
      exact ⟨r', hr', rfl⟩

/-! ## Runs -/

variable (env : Env)

theorem execAll_concat (m : Memories) (ops : List (World × Op)) (e : World × Op) :
    execAll env m (ops ++ [e]) = (exec env e.1 e.2 (execAll env m ops)).2 := by
  rw [execAll, List.foldl_append]
  rfl

/-- **The links of a run.** They are sound in every state of a run exactly when no deletion of the
run takes the replacement of an entry it leaves. -/
theorem sound_run_iff (ops : List (World × Op)) :
    (∀ n, Sound env (execAll env .empty (ops.take n))) ↔
      ∀ pre e post, ops = pre ++ e :: post → Spares e.1 e.2 (execAll env .empty pre) := by
  constructor
  · intro h pre e post hops
    have hstep := h (pre.length + 1)
    have htake : ops.take (pre.length + 1) = pre ++ [e] := by
      rw [hops, List.take_append]
      simp
    rw [htake, execAll_concat] at hstep
    exact spares_of_sound hstep
  · intro h n
    have hlinked : ∀ pre post, ops = pre ++ post → Linked (execAll env .empty pre) := by
      intro pre
      induction pre using List.reverseRecOn with
      | nil =>
        intro _ _
        exact linked_empty
      | append_singleton pre e ih =>
        intro post hops
        rw [execAll_concat]
        rw [List.append_assoc] at hops
        exact (ih _ hops).exec env (h pre e post hops)
    exact (hlinked _ _ (List.take_append_drop n ops).symm).sound env

/-! ### A replacement forgotten -/

/-- A fact is stored, then replaced, and the replacement is forgotten. -/
def forgottenReplacement : List (World × Op) :=
  [(⟨0, idOf '0', true⟩, .add tenantA (fact "old") []),
    (⟨1, idOf '1', true⟩, .supersede tenantA (idOf '0') (replacement "new")),
    (⟨2, idOf '2', true⟩, .forget tenantA [idOf '1'])]

theorem links_forgottenReplacement :
    (execAll wordEnv .empty forgottenReplacement).rows.map (fun r => (r.id, r.supersededBy)) =
      [(idOf '0', some (idOf '1'))] := by
  decide

/-- Some run leaves a link that leads nowhere. -/
theorem not_all_runs_sound : ¬ ∀ env ops, Sound env (execAll env .empty ops) := by
  intro h
  have hsound := h wordEnv forgottenReplacement
  have hlinks := links_forgottenReplacement
  generalize execAll wordEnv .empty forgottenReplacement = m at hsound hlinks
  obtain ⟨r, hr, hid⟩ : ∃ r ∈ m.rows, r.supersededBy = some (idOf '1') := by
    have hmem : (idOf '0', some (idOf '1')) ∈ m.rows.map fun r => (r.id, r.supersededBy) := by
      rw [hlinks]
      exact List.mem_singleton.2 rfl
    obtain ⟨r, hr, heq⟩ := List.mem_map.1 hmem
    exact ⟨r, hr, congrArg Prod.snd heq⟩
  obtain ⟨r', hr', hid'⟩ := hsound.target r hr _ hid
  have hmem : (r'.id, r'.supersededBy) ∈ [(idOf '0', some (idOf '1'))] :=
    hlinks ▸ List.mem_map_of_mem hr'
  have hold : r'.id = idOf '0' := congrArg Prod.fst (List.mem_singleton.1 hmem)
  have hne : idOf '1' ≠ idOf '0' := by decide
  exact hne (hid'.symm.trans hold)

end RagLeap.Memory
