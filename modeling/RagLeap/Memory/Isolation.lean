import RagLeap.Memory.Store

/-!
# Isolation of the memory store

What an operation under a scope reads, returns and changes are the rows the scope covers
(`covered`); the others stay as they are. An operation on two stores with the same covered rows
does the same (`exec_congr`), but for a search, whose scores also depend on the statistics of the
index.

The operations of other tenants therefore leave the covered rows alone, and with them all a search
chooses from (`covered_execAll`).
-/

namespace RagLeap.Memory

open Security

/-- The rows that the scope covers. -/
def covered (scope : Scope) (m : Memories) : List Row := m.rows.filter fun r => scope.covers r.scope

/-- The rows that the scope does not cover. -/
def uncovered (scope : Scope) (m : Memories) : List Row :=
  m.rows.filter fun r => !scope.covers r.scope

section

variable {scope : Scope} {m m' : Memories}

theorem mem_covered {r : Row} : r ∈ covered scope m ↔ r ∈ m.rows ∧ scope.covers r.scope :=
  List.mem_filter

theorem filter_selects (scope : Scope) (m : Memories) :
    m.rows.filter (selects scope) = covered scope m :=
  List.filter_congr fun r _ => selects_eq scope r

/-! ## The rows outside the scope -/

/-- Deleting covered rows only. -/
theorem uncovered_delete {p : Row → Bool} (hp : ∀ r, p r = true → scope.covers r.scope = true) :
    uncovered scope (m.delete p) = uncovered scope m := by
  unfold uncovered Memories.delete
  rw [List.filter_filter]
  refine List.filter_congr fun r _ => ?_
  cases hr : p r with
  | false => simp
  | true => simp [hp r hr]

theorem uncovered_insert {row : Row} (hrow : scope.covers row.scope = true)
    (h : m.insert row = some m') : uncovered scope m' = uncovered scope m := by
  unfold uncovered
  rw [(Memories.rows_insert h).2, List.filter_append, List.filter_singleton]
  simp [hrow]

/-- The link of a covered row is set. -/
theorem uncovered_setSuperseded {old : Row} (hold : old ∈ m.rows)
    (hcovers : scope.covers old.scope = true) (newId : Str) :
    uncovered scope (m.setSuperseded newId old.id) = uncovered scope m := by
  unfold uncovered Memories.setSuperseded
  rw [List.filter_map]
  have hpred : (fun r => !scope.covers r.scope) ∘ redirect newId old.id =
      fun r => !scope.covers r.scope := by
    funext r
    simp
  rw [hpred, List.map_congr_left (g := id), List.map_id]
  intro r hr
  apply redirect_of_ne
  intro hid
  obtain ⟨hmem, hnot⟩ := List.mem_filter.1 hr
  rw [Memories.eq_of_id_eq hmem hold hid, hcovers] at hnot
  cases hnot

theorem covers_of_deletes {w : World} {op : Op} {r : Row} (h : op.deletes w r = true) :
    op.scope.covers r.scope = true := by
  rw [← selects_eq]
  cases op <;> simp_all [Op.deletes, Op.scope]

/-- **An operation leaves the rows outside its scope as they are.** -/
theorem uncovered_exec (env : Env) (w : World) (op : Op) (m : Memories) :
    uncovered op.scope (exec env w op m).2 = uncovered op.scope m := by
  have hchange := exec_change env w op m
  generalize (exec env w op m).2 = m₂ at hchange ⊢
  cases hchange with
  | deleted => exact uncovered_delete fun r => covers_of_deletes
  | added hscope _ hins _ => exact uncovered_insert (hscope ▸ Scope.covers_refl _) hins
  | superseded hold hcovers _ hscope _ hins _ =>
    have hmem := (Memories.rows_insert hins).2 ▸ List.mem_append_left _ hold
    rw [uncovered_setSuperseded hmem hcovers, uncovered_insert (hscope ▸ hcovers) hins]

/-! ## The rows inside the scope -/

theorem filter_eq_covered {p : Row → Bool} (hp : ∀ r, p r = true → scope.covers r.scope = true) :
    m.rows.filter p = (covered scope m).filter p := by
  unfold covered
  rw [List.filter_filter]
  refine List.filter_congr fun r _ => ?_
  cases hr : p r with
  | false => rfl
  | true => simp [hp r hr]

theorem countP_eq_covered {p : Row → Bool} (hp : ∀ r, p r = true → scope.covers r.scope = true) :
    m.rows.countP p = (covered scope m).countP p := by
  rw [List.countP_eq_length_filter, filter_eq_covered hp, List.countP_eq_length_filter]

theorem covered_delete (p : Row → Bool) :
    covered scope (m.delete p) = (covered scope m).filter fun r => !p r := by
  unfold covered Memories.delete
  rw [List.filter_filter, List.filter_filter]
  exact List.filter_congr fun r _ => Bool.and_comm _ _

theorem covered_insert {row : Row} (h : m.insert row = some m') :
    covered scope m' = covered scope m ++ [row].filter fun r => scope.covers r.scope := by
  unfold covered
  rw [(Memories.rows_insert h).2, List.filter_append]

theorem covered_setSuperseded (newId oldId : Str) :
    covered scope (m.setSuperseded newId oldId) =
      (covered scope m).map (redirect newId oldId) := by
  unfold covered Memories.setSuperseded
  rw [List.filter_map]
  congr 2
  funext r
  simp

theorem find?_visible (id : Str) :
    (m.rows.find? fun r => r.id = id && selects scope r) =
      (covered scope m).find? fun r => r.id = id := by
  unfold covered
  rw [List.find?_filter]
  congr 1
  funext r
  rw [selects_eq, Bool.and_comm, Bool.decide_and, Bool.decide_eq_true, Bool.decide_eq_true]

theorem visible_eq_error {id : Str}
    (h : ∀ r ∈ m.rows, r.id = id → scope.covers r.scope = false) :
    visible scope id m = .error .notFound := by
  have hnone : (m.rows.find? fun r => r.id = id && selects scope r) = none := by
    rw [List.find?_eq_none]
    intro r hr hsel
    rw [Bool.and_eq_true, selects_eq, h r hr (of_decide_eq_true (Bool.and_eq_true _ _ ▸ hsel).1)]
      at hsel
    cases hsel.2
  rw [visible, hnone]

/-! ## Two stores with the same covered rows -/

/-- What a scope sees of an outcome: the value, and the covered rows. -/
def view {α : Type} (scope : Scope) (x : Except Error (α × Memories)) : Except Error (α × List Row) :=
  x.map fun p => (p.1, covered scope p.2)

theorem view_eq_iff {α : Type} {x y : Except Error (α × Memories)} :
    view scope x = view scope y ↔
      (∃ e, x = .error e ∧ y = .error e) ∨
        ∃ a m₁ m₂, x = .ok (a, m₁) ∧ y = .ok (a, m₂) ∧ covered scope m₁ = covered scope m₂ := by
  constructor
  · intro h
    cases x with
    | error e =>
      cases y with
      | error e' => exact .inl ⟨e, rfl, by cases h; rfl⟩
      | ok q => cases h
    | ok p =>
      cases y with
      | error e' => cases h
      | ok q =>
        obtain ⟨a, m₁⟩ := p
        obtain ⟨b, m₂⟩ := q
        obtain ⟨rfl, hrows⟩ := Prod.mk.inj (Except.ok.inj h)
        exact .inr ⟨a, m₁, m₂, rfl, rfl, hrows⟩
  · rintro (⟨e, rfl, rfl⟩ | ⟨a, m₁, m₂, rfl, rfl, h⟩)
    · rfl
    · exact congrArg (fun rows => Except.ok (a, rows)) h

/-- The same result, and the same covered rows. -/
def Agree (scope : Scope) (x y : Except Error Result × Memories) : Prop :=
  x.1 = y.1 ∧ covered scope x.2 = covered scope y.2

theorem transaction_agree {w : World} {body : Memories → Except Error (Result × Memories)}
    (h : covered scope m = covered scope m') (hbody : view scope (body m) = view scope (body m')) :
    Agree scope (transaction w body m) (transaction w body m') := by
  unfold transaction
  rcases view_eq_iff.1 hbody with ⟨e, hx, hy⟩ | ⟨a, m₁, m₂, hx, hy, hrows⟩
  · rw [hx, hy]
    exact ⟨rfl, h⟩
  · rw [hx, hy]
    dsimp only
    split
    · exact ⟨rfl, hrows⟩
    · exact ⟨rfl, h⟩

theorem visible_congr (h : covered scope m = covered scope m') (id : Str) :
    visible scope id m = visible scope id m' := by
  unfold visible
  rw [find?_visible, find?_visible, h]

theorem allVisible_congr (h : covered scope m = covered scope m') (ids : List Str) :
    allVisible scope ids m = allVisible scope ids m' := by
  unfold allVisible
  congr 1
  funext id
  rw [visible_congr h]

theorem insertEntry_congr {w : World} {scope' : Scope} {new : NewEntry} {checked : Checked}
    {derivedFrom : List Str} (h : covered scope m = covered scope m')
    (hid : w.uuid4 ∈ m.rows.map Row.id ↔ w.uuid4 ∈ m'.rows.map Row.id) :
    view scope (insertEntry w scope' new checked derivedFrom m) =
      view scope (insertEntry w scope' new checked derivedFrom m') := by
  unfold insertEntry
  dsimp only
  split
  case h_1 hins =>
    split
    case h_1 => rfl
    case h_2 hins' =>
      refine absurd (hid.1 ?_) (Memories.rows_insert hins').1
      by_contra hfresh
      simp [Memories.insert, hfresh] at hins
  case h_2 hins =>
    split
    case h_1 hins' =>
      refine absurd (hid.2 ?_) (Memories.rows_insert hins).1
      by_contra hfresh
      simp [Memories.insert, hfresh] at hins'
    case h_2 hins' =>
      refine view_eq_iff.2 (.inr ⟨_, _, _, rfl, rfl, ?_⟩)
      rw [covered_insert hins, covered_insert hins', h]

theorem view_bind {α β : Type} {x : Except Error α} {f g : α → Except Error (β × Memories)}
    (h : ∀ a, view scope (f a) = view scope (g a)) :
    view scope (x >>= f) = view scope (x >>= g) := by
  cases x with
  | error e => rfl
  | ok a => exact h a

theorem view_bind_store {α β : Type} {x y : Except Error (α × Memories)}
    {f : α × Memories → Except Error (β × Memories)} (h : view scope x = view scope y)
    (hf : ∀ a m₁ m₂, covered scope m₁ = covered scope m₂ →
      view scope (f (a, m₁)) = view scope (f (a, m₂))) :
    view scope (x >>= f) = view scope (y >>= f) := by
  rcases view_eq_iff.1 h with ⟨e, rfl, rfl⟩ | ⟨a, m₁, m₂, rfl, rfl, hrows⟩
  · rfl
  · exact hf a m₁ m₂ hrows

variable {env : Env} {w : World}

theorem add_agree (new : NewEntry) (derivedFrom : List Str)
    (h : covered scope m = covered scope m')
    (hid : w.uuid4 ∈ m.rows.map Row.id ↔ w.uuid4 ∈ m'.rows.map Row.id) :
    Agree scope (add env w scope new derivedFrom m) (add env w scope new derivedFrom m') := by
  unfold add
  split
  · exact ⟨rfl, h⟩
  · split
    · exact ⟨rfl, h⟩
    · apply transaction_agree h
      rw [allVisible_congr h]
      refine view_bind fun _ => view_bind_store (insertEntry_congr h hid) ?_
      intro row m₁ m₂ hrows
      exact view_eq_iff.2 (.inr ⟨_, _, _, rfl, rfl, hrows⟩)

theorem supersede_agree (oldId : Str) (new : Replacement)
    (h : covered scope m = covered scope m')
    (hid : w.uuid4 ∈ m.rows.map Row.id ↔ w.uuid4 ∈ m'.rows.map Row.id) :
    Agree scope (supersede env w scope oldId new m) (supersede env w scope oldId new m') := by
  unfold supersede
  apply transaction_agree h
  rw [visible_congr h]
  refine view_bind fun old => ?_
  split
  · rfl
  · refine view_bind fun _ => view_bind_store (insertEntry_congr h hid) ?_
    intro row m₁ m₂ hrows
    refine view_eq_iff.2 (.inr ⟨_, _, _, rfl, rfl, ?_⟩)
    rw [covered_setSuperseded, covered_setSuperseded, hrows]

theorem deleteCounted_agree {p : Row → Bool} (hp : ∀ r, p r = true → scope.covers r.scope = true)
    (h : covered scope m = covered scope m') :
    Agree scope (deleteCounted w p m) (deleteCounted w p m') := by
  unfold deleteCounted
  apply transaction_agree h
  rw [countP_eq_covered hp, countP_eq_covered hp, h]
  refine view_eq_iff.2 (.inr ⟨_, _, _, rfl, rfl, ?_⟩)
  rw [covered_delete, covered_delete, h]

/-- The rows a search can choose from are covered. -/
theorem candidates_congr (h : covered scope m = covered scope m') (q : Query) (kinds : List Kind)
    (minTrust : Trust) :
    candidates env w scope q kinds minTrust m = candidates env w scope q kinds minTrust m' := by
  unfold candidates
  rw [filter_eq_covered, filter_eq_covered, h]
  all_goals
    intro r hr
    simp only [Bool.and_eq_true, selects_eq] at hr
    exact hr.1.1.1.1.2

theorem search_congr (h : covered scope m = covered scope m') {q : Query}
    (hstats : indexStats env (phrases env q.text) m = indexStats env (phrases env q.text) m') :
    search env w scope q m = search env w scope q m' := by
  unfold search
  rw [hstats]
  split
  · rfl
  · rw [candidates_congr h]

/-- **An operation does the same on two stores with the same covered rows**, if the new id is free
in both or in none and, for a search, the index has the same statistics. -/
theorem exec_agree (op : Op) (h : covered op.scope m = covered op.scope m')
    (hid : w.uuid4 ∈ m.rows.map Row.id ↔ w.uuid4 ∈ m'.rows.map Row.id)
    (hstats : ∀ s q, op = .search s q →
      indexStats env (phrases env q.text) m = indexStats env (phrases env q.text) m') :
    Agree op.scope (exec env w op m) (exec env w op m') := by
  cases op with
  | add scope new derivedFrom => exact add_agree new derivedFrom h hid
  | get scope id =>
    refine ⟨?_, h⟩
    replace h : covered scope m = covered scope m' := h
    show (visible scope id m).map _ = (visible scope id m').map _
    rw [visible_congr h]
  | count scope =>
    refine ⟨?_, h⟩
    replace h : covered scope m = covered scope m' := h
    have hselects : ∀ r, selects scope r = true → scope.covers r.scope = true :=
      fun r => (selects_eq scope r ▸ ·)
    show Except.ok (Result.number _) = Except.ok (Result.number _)
    rw [countP_eq_covered hselects, countP_eq_covered hselects, h]
  | search scope q =>
    refine ⟨?_, h⟩
    exact search_congr h (hstats scope q rfl)
  | supersede scope oldId new => exact supersede_agree oldId new h hid
  | forget scope ids =>
    unfold exec forget
    dsimp only
    split
    · exact ⟨rfl, h⟩
    · split
      · exact ⟨rfl, h⟩
      · refine deleteCounted_agree ?_ h
        intro r hr
        rw [Bool.and_eq_true, selects_eq] at hr
        exact hr.2
  | exportEntries scope =>
    apply transaction_agree h
    replace h : covered scope m = covered scope m' := h
    rw [exported, exported, filter_selects, filter_selects, h]
    exact view_eq_iff.2 (.inr ⟨_, _, _, rfl, rfl, h⟩)
  | erase scope => exact deleteCounted_agree (fun r => (selects_eq scope r ▸ ·)) h
  | sweepExpired scope =>
    refine deleteCounted_agree ?_ h
    intro r hr
    rw [Bool.and_eq_true, selects_eq] at hr
    exact hr.1

/-! ## What an operation returns -/

/-- The entries a result holds. -/
def Result.rows : Result → List Row
  | entry row => [row]
  | number _ => []
  | hits found => found.map SearchHit.entry
  | entries rows => rows

theorem transaction_eq_ok {body : Memories → Except Error (Result × Memories)} {res : Result}
    (h : (transaction w body m).1 = .ok res) :
    ∃ m', body m = .ok (res, m') ∧ transaction w body m = (.ok res, m') := by
  unfold transaction at h ⊢
  split at h
  case h_1 => cases h
  case h_2 r m' hbody =>
    split at h
    case isTrue haudited =>
      cases h
      exact ⟨m', hbody, if_pos haudited⟩
    case isFalse => cases h

theorem mem_of_mem_ranked {k : ℕ} {score : Row → ℚ} {rows : List Row} {r : Row}
    (h : r ∈ (ranked k score rows).map SearchHit.entry) : r ∈ rows := by
  unfold ranked at h
  rw [List.map_map] at h
  obtain ⟨r', hr', rfl⟩ := List.mem_map.1 h
  exact List.mem_mergeSort.1 (List.mem_of_mem_take hr')

theorem covers_of_mem_candidates {q : Query} {kinds : List Kind} {minTrust : Trust} {r : Row}
    (h : r ∈ candidates env w scope q kinds minTrust m) : scope.covers r.scope = true := by
  obtain ⟨-, hr⟩ := List.mem_filter.1 h
  simp only [Bool.and_eq_true, selects_eq] at hr
  exact hr.1.1.1.1.2

theorem deleteCounted_rows {p : Row → Bool} {res : Result}
    (h : (deleteCounted w p m).1 = .ok res) : res.rows = [] := by
  obtain ⟨m', hbody, -⟩ := transaction_eq_ok h
  cases hbody
  rfl

theorem exported_perm (scope : Scope) (m : Memories) :
    (exported scope m).Perm (covered scope m) := by
  rw [exported, filter_selects]
  exact List.mergeSort_perm _ _

/-- **Only entries the scope covers are returned.** -/
theorem covers_of_returned {op : Op} {res : Result} (h : (exec env w op m).1 = .ok res) :
    ∀ r ∈ res.rows, op.scope.covers r.scope = true := by
  intro r hr
  cases op with
  | add scope new derivedFrom =>
    unfold exec add at h
    dsimp only at h
    split at h
    · cases h
    · split at h
      · cases h
      · obtain ⟨m', hbody, -⟩ := transaction_eq_ok h
        obtain ⟨-, -, hbody⟩ := bind_eq_ok.1 hbody
        obtain ⟨⟨row, m₁⟩, hins, hret⟩ := bind_eq_ok.1 hbody
        cases hret
        obtain ⟨hscope, -, -⟩ := insertEntry_eq_ok hins
        rw [List.mem_singleton.1 hr, hscope]
        exact Scope.covers_refl _
  | get scope id =>
    replace h : (visible scope id m).map Result.entry = .ok res := h
    cases hv : visible scope id m with
    | error e =>
      rw [hv] at h
      cases h
    | ok row =>
      rw [hv] at h
      cases h
      rw [List.mem_singleton.1 hr]
      exact (visible_eq_ok hv).2.2
  | count scope =>
    cases h
    cases hr
  | search scope q =>
    replace h : search env w scope q m = .ok res := h
    unfold search at h
    split at h
    · cases h
    · cases h
      exact covers_of_mem_candidates (mem_of_mem_ranked hr)
  | supersede scope oldId new =>
    obtain ⟨m', hbody, -⟩ := transaction_eq_ok h
    obtain ⟨old, hold, hbody⟩ := bind_eq_ok.1 hbody
    split at hbody
    · cases hbody
    · obtain ⟨checked, -, hbody⟩ := bind_eq_ok.1 hbody
      obtain ⟨⟨row, m₁⟩, hins, hret⟩ := bind_eq_ok.1 hbody
      cases hret
      obtain ⟨hscope, -, -⟩ := insertEntry_eq_ok hins
      rw [List.mem_singleton.1 hr, hscope]
      exact (visible_eq_ok hold).2.2
  | forget scope ids =>
    unfold exec forget at h
    dsimp only at h
    split at h
    · cases h
    · split at h
      · cases h
        cases hr
      · rw [deleteCounted_rows h] at hr
        cases hr
  | exportEntries scope =>
    obtain ⟨m', hbody, -⟩ := transaction_eq_ok h
    cases hbody
    have hmem := (exported_perm scope m).mem_iff.1 hr
    exact (mem_covered.1 hmem).2
  | erase scope =>
    rw [deleteCounted_rows h] at hr
    cases hr
  | sweepExpired scope =>
    rw [deleteCounted_rows h] at hr
    cases hr

/-! ## The visibility rule -/

/-- The operations under a scope act by the rule of `Scope.covers`. -/
structure ObeysCovers (env : Env) (scope : Scope) : Prop where
  /-- Entries that are not covered stay as they are. -/
  frame : ∀ w op m, op.scope = scope → uncovered scope (exec env w op m).2 = uncovered scope m
  /-- What is returned is covered. -/
  returns : ∀ w op m res, op.scope = scope → (exec env w op m).1 = .ok res →
    ∀ r ∈ res.rows, scope.covers r.scope = true
  /-- The result and the effect depend on the covered entries, and for a search on the statistics
  of the index. -/
  reads : ∀ w op m m', op.scope = scope → covered scope m = covered scope m' →
    (w.uuid4 ∈ m.rows.map Row.id ↔ w.uuid4 ∈ m'.rows.map Row.id) →
    (∀ s q, op = .search s q →
      indexStats env (phrases env q.text) m = indexStats env (phrases env q.text) m') →
    (exec env w op m).1 = (exec env w op m').1 ∧
      covered scope (exec env w op m).2 = covered scope (exec env w op m').2
  /-- A search chooses from covered entries, whatever else is stored. -/
  chooses : ∀ w q kinds minTrust m m', covered scope m = covered scope m' →
    candidates env w scope q kinds minTrust m = candidates env w scope q kinds minTrust m'
  /-- An id that is not covered is reported as missing, as if nothing else were stored. -/
  missing : ∀ w id m, (∀ r ∈ m.rows, r.id = id → scope.covers r.scope = false) →
    exec env w (.get scope id) m = (.error .notFound, m) ∧
      ∀ new, exec env w (.supersede scope id new) m = (.error .notFound, m)
  /-- `forget` counts and deletes the covered entries of the list. -/
  forgets : ∀ w ids m, w.audited = true → ids.length ≤ 1000 → ids.all isId = true →
    (exec env w (.forget scope ids) m).1 =
        .ok (.number ((covered scope m).countP fun r => ids.contains r.id)) ∧
      covered scope (exec env w (.forget scope ids) m).2 =
        (covered scope m).filter fun r => !ids.contains r.id
  counts : ∀ w m, exec env w (.count scope) m = (.ok (.number (covered scope m).length), m)
  exports : ∀ w m, w.audited = true → ∃ rows, rows.Perm (covered scope m) ∧
    exec env w (.exportEntries scope) m = (.ok (.entries rows), m)
  erases : ∀ w m, w.audited = true →
    (exec env w (.erase scope) m).1 = .ok (.number (covered scope m).length) ∧
      (exec env w (.erase scope) m).2.rows = uncovered scope m
  sweeps : ∀ w m, w.audited = true →
    (exec env w (.sweepExpired scope) m).1 =
        .ok (.number ((covered scope m).countP (expired w.now))) ∧
      covered scope (exec env w (.sweepExpired scope) m).2 =
        (covered scope m).filter fun r => !expired w.now r

theorem countP_selects (scope : Scope) (m : Memories) :
    m.rows.countP (selects scope) = (covered scope m).length := by
  rw [List.countP_eq_length_filter, filter_selects]

/-- A deletion of the covered rows with a further property. -/
theorem deleteCounted_covered {p q : Row → Bool} (haudited : w.audited = true)
    (hpq : ∀ r, p r = (q r && selects scope r)) :
    (deleteCounted w p m).1 = .ok (.number ((covered scope m).countP q)) ∧
      covered scope (deleteCounted w p m).2 = (covered scope m).filter fun r => !q r := by
  have hcovered : ∀ r ∈ covered scope m, p r = q r := by
    intro r hr
    rw [hpq r, selects_eq, (mem_covered.1 hr).2, Bool.and_true]
  have hcount : m.rows.countP p = (covered scope m).countP q := by
    have hp : ∀ r, p r = true → scope.covers r.scope = true := by
      intro r hr
      rw [hpq r, Bool.and_eq_true, selects_eq] at hr
      exact hr.2
    rw [countP_eq_covered hp]
    exact List.countP_congr fun r hr => by rw [hcovered r hr]
  unfold deleteCounted transaction
  dsimp only
  rw [if_pos haudited, hcount]
  refine ⟨rfl, ?_⟩
  rw [covered_delete]
  exact List.filter_congr fun r hr => by rw [hcovered r hr]

/-- **The operations implement `Scope.covers`**, for every scope. -/
theorem obeysCovers (env : Env) (scope : Scope) : ObeysCovers env scope where
  frame := by
    rintro w op m rfl
    exact uncovered_exec env w op m
  returns := by
    rintro w op m res rfl h
    exact covers_of_returned h
  reads := by
    rintro w op m m' rfl h hid hstats
    exact exec_agree op h hid hstats
  chooses w q kinds minTrust m m' h := candidates_congr h q kinds minTrust
  missing := by
    intro w id m h
    have hv := visible_eq_error h
    constructor
    · show ((visible scope id m).map Result.entry, m) = _
      rw [hv]
      rfl
    · intro new
      show supersede env w scope id new m = _
      unfold supersede transaction
      dsimp only
      rw [hv]
      rfl
  forgets := by
    intro w ids m haudited hlength hids
    have hgood : ¬ (1000 < ids.length ∨ ¬ ids.all isId) := by
      rw [not_or, not_lt, not_not]
      exact ⟨hlength, hids⟩
    unfold exec forget
    dsimp only
    rw [if_neg hgood]
    split
    case isTrue hnil =>
      subst hnil
      simp
    case isFalse => exact deleteCounted_covered haudited fun r => rfl
  counts w m := by
    show (Except.ok (Result.number _), m) = _
    rw [countP_selects]
  exports := by
    intro w m haudited
    refine ⟨exported scope m, exported_perm scope m, ?_⟩
    unfold exec exportEntries transaction
    dsimp only
    rw [if_pos haudited]
  erases := by
    intro w m haudited
    show (deleteCounted w (selects scope) m).1 = _ ∧ (deleteCounted w (selects scope) m).2.rows = _
    unfold deleteCounted transaction
    dsimp only
    rw [if_pos haudited, countP_selects]
    refine ⟨rfl, ?_⟩
    exact List.filter_congr fun r _ => by rw [selects_eq]
  sweeps := by
    intro w m haudited
    exact deleteCounted_covered haudited fun r => Bool.and_comm _ _

end

/-! ### The statistics of the index are shared -/

theorem mergeSort_pair {α : Type} (le : α → α → Bool) (a b : α) :
    [a, b].mergeSort le = if le a b then [a, b] else [b, a] := by
  simp [List.mergeSort, List.MergeSort.Internal.splitInTwo, List.merge]

/-- Of two rows, the one with the better score is the first hit. -/
theorem ranked_pair {score : Row → ℚ} (a b : Row) (h : score a ≠ score b) :
    ranked 1 score [a, b] =
      if score a < score b then [⟨a, -score a⟩] else [⟨b, -score b⟩] := by
  unfold ranked
  rw [mergeSort_pair]
  by_cases hlt : score a < score b <;> simp [hlt, h]

/-- A row of the scope with the text. -/
def factOf (scope : Scope) (id : Char) (text : Str) : Row where
  id := idOf id
  scope := scope
  kind := .fact
  text := text
  source := "api".toList
  trust := .owner
  importance := 1
  createdAt := 0
  expiresAt := none
  supersededBy := none
  derivedFrom := []
  metadata := []

/-- One word. -/
def shortFact : Row := factOf tenantA '0' ['x']

/-- The word twice, in ten. -/
def longFact : Row := factOf tenantA '1' "x x y y y y y y y y".toList

def twoFacts : Memories := ⟨[shortFact, longFact], by decide⟩

/-- A scope of the tenant `b`. -/
def tenantB : Scope := .ofTenant ['b'] rfl

/-- A text of a hundred other words. -/
def hundredWords : Str := (List.replicate 100 ['z', ' ']).flatten

/-- The rows of `twoFacts` beside one of the other tenant. -/
def threeFacts : Memories :=
  ⟨[shortFact, longFact, factOf tenantB '2' hundredWords], by decide⟩

def queryX : Query := ⟨['x'], 1, none, "untrusted".toList, false, false⟩

theorem checkQuery_queryX :
    checkQuery wordEnv queryX = .ok ([.episode, .fact, .summary], .untrusted, 1) := by
  decide

/-- The clock and the identifier of the sample calls. -/
def sampleWorld : World := ⟨2, idOf '2', true⟩

/-- The rows the search of `queryX` finds in a store. -/
def foundBy (m : Memories) : List Row :=
  candidates wordEnv sampleWorld tenantA queryX [.episode, .fact, .summary] .untrusted m

theorem foundBy_twoFacts : foundBy twoFacts = [shortFact, longFact] := by
  apply List.filter_eq_self.2
  intro r hr
  rcases List.mem_cons.1 hr with rfl | hr
  · decide
  · rw [List.mem_singleton.1 hr]
    decide

theorem foundBy_threeFacts : foundBy threeFacts = [shortFact, longFact] := by
  rw [← foundBy_twoFacts]
  apply candidates_congr
  rfl

/-- The search for `queryX` where the statistics of the index are `stats`. -/
theorem search_queryX {m : Memories} (hfound : foundBy m = [shortFact, longFact])
    {stats : IndexStats} (hstats : indexStats wordEnv [[['x']]] m = stats) :
    search wordEnv sampleWorld tenantA queryX m =
      .ok (.hits (ranked 1 (fun r => bm25 wordEnv stats [[['x']]] r.text) [shortFact, longFact])) := by
  have hphrases : phrases wordEnv queryX.text = [[['x']]] := by decide
  unfold search
  rw [checkQuery_queryX, hphrases, hstats]
  exact congrArg (fun rows => Except.ok (Result.hits (ranked 1 _ rows))) hfound

/-- The ids of the hits. -/
def hitIds : Except Error Result → List Str
  | .ok (.hits found) => found.map fun hit => hit.entry.id
  | _ => []

theorem hitIds_twoFacts :
    hitIds (search wordEnv sampleWorld tenantA queryX twoFacts) = [idOf '0'] := by
  rw [search_queryX foundBy_twoFacts (show _ = ⟨2, 11, [2]⟩ by decide)]
  rw [ranked_pair _ _ (by decide +kernel), if_pos (by decide +kernel)]
  rfl

theorem hitIds_threeFacts :
    hitIds (search wordEnv sampleWorld tenantA queryX threeFacts) = [idOf '1'] := by
  rw [search_queryX foundBy_threeFacts (show _ = ⟨3, 111, [2]⟩ by decide)]
  rw [ranked_pair _ _ (by decide +kernel), if_neg (by decide +kernel)]
  rfl

/-- What a search returns depends on entries the scope does not cover. -/
theorem search_reads_uncovered : ¬ ∀ env w scope q m m', covered scope m = covered scope m' →
    search env w scope q m = search env w scope q m' := by
  intro h
  have heq := congrArg hitIds (h wordEnv sampleWorld tenantA queryX twoFacts threeFacts rfl)
  rw [hitIds_twoFacts, hitIds_threeFacts] at heq
  exact absurd heq (by decide)

end RagLeap.Memory
