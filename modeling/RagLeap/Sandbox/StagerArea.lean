import RagLeap.Foundations.JsonRoundTrip
import RagLeap.Sandbox.StagerScan

/-!
# What a pass leaves in the staging area

`Keeps` is what the loop over the candidates maintains: every entry kept so far has its file in the
area, or is an entry of the previous manifest whose staged file was not touched; the number of
entries and the total are what the checks have seen. `pass_leaves` is what follows for the area and
the manifest after a pass, and `history_leaves` for a history of passes.
-/

namespace RagLeap.Staging

open PyStr JsonText Sandbox

variable {C : Type} {env : Env C} {lim : Limits}

/-! ## Temporary files -/

def tmpName (pid : ℕ) : PyStr := lit ".stage-" ++ natText pid ++ lit ".tmp"

/-- A path at which a process puts its temporary file. -/
def IsTemporary (p : PyStr) : Prop :=
  ∃ pid path, (∀ n ∈ path, IsEntryName n) ∧ p = tmpPath pid path

theorem ascii_tmpName (pid : ℕ) :
    ∀ c ∈ tmpName pid, c.val < 0x80 ∧ c ≠ ch '/' ∧ ¬ (65 ≤ c.val ∧ c.val ≤ 90) := by
  have hlit : ∀ c ∈ lit ".stage-" ++ lit ".tmp",
      c.val < 0x80 ∧ c ≠ ch '/' ∧ ¬ (65 ≤ c.val ∧ c.val ≤ 90) := by
    have hall : (lit ".stage-" ++ lit ".tmp").all (fun c =>
        c.val < 0x80 ∧ c ≠ ch '/' ∧ ¬ (65 ≤ c.val ∧ c.val ≤ 90)) = true := by decide
    intro c hc
    exact of_decide_eq_true (List.all_eq_true.1 hall c hc)
  intro c hc
  rw [tmpName, List.mem_append, List.mem_append] at hc
  rcases hc with (hc | hc) | hc
  · exact hlit c (List.mem_append_left _ hc)
  · have hdigit := isDigit_natText pid c hc
    rw [isDigit, Bool.and_eq_true, decide_eq_true_eq, decide_eq_true_eq] at hdigit
    have hlow : 48 ≤ c.val := hdigit.1
    have hhigh : c.val ≤ 57 := hdigit.2
    refine ⟨by omega, ?_, by omega⟩
    rintro rfl
    exact absurd hlow (by decide)
  · exact hlit c (List.mem_append_right _ hc)

theorem isEntryName_tmpName (pid : ℕ) : IsEntryName (tmpName pid) :=
  ⟨by simp [tmpName, natText_ne_nil], fun h => (ascii_tmpName pid _ h).2.1 rfl⟩

/-- The name of a temporary file has no extension that is staged. -/
theorem hasExtension_tmpName (pid : ℕ) : hasExtension env (tmpName pid) = false := by
  have hlower : env.lower (tmpName pid) = tmpName pid := by
    rw [env.lower_ascii _ fun c hc => (ascii_tmpName pid c hc).1]
    conv_rhs => rw [← List.map_id (tmpName pid)]
    apply List.map_congr_left
    intro c hc
    exact if_neg (ascii_tmpName pid c hc).2.2
  have hends : stageExtensions.all (fun x =>
      !x.isSuffixOf (lit ".tmp") && !(lit ".tmp").isSuffixOf x) = true := by decide
  rw [hasExtension, hlower, List.any_eq_false]
  intro x hx hsuffix
  have hboth := List.all_eq_true.1 hends x hx
  rw [Bool.and_eq_true, Bool.not_eq_true', Bool.not_eq_true', ← Bool.not_eq_true,
    ← Bool.not_eq_true, List.isSuffixOf_iff_suffix, List.isSuffixOf_iff_suffix] at hboth
  rcases List.suffix_or_suffix_of_suffix (List.isSuffixOf_iff_suffix.1 hsuffix)
    (List.suffix_append (lit ".stage-" ++ natText pid) (lit ".tmp")) with h | h
  · exact hboth.1 h
  · exact hboth.2 h

/-- No staged file lies at a temporary file's path. -/
theorem Allowed.not_isTemporary {path : List PyStr} (h : Allowed env path) :
    ¬ IsTemporary (relText path) := by
  rintro ⟨pid, dir, hdir, heq⟩
  have hnames : ∀ n ∈ dir.dropLast ++ [tmpName pid], IsEntryName n := by
    intro n hn
    rcases List.mem_append.1 hn with hn | hn
    · exact hdir n (List.mem_of_mem_dropLast hn)
    · exact List.mem_singleton.1 hn ▸ isEntryName_tmpName pid
  have := relText_injective h.ne_nil (by simp) (fun n hn => (h.names n hn).entry) hnames heq
  have hext := h.extension (tmpName pid) (by rw [this, List.getLast?_concat]; rfl)
  rw [hasExtension_tmpName] at hext
  cases hext

/-! ## The turn of a candidate -/

/-- What the turn of a candidate can come to. -/
inductive Turn (env : Env C) (lim : Limits) (prev : Dict PyStr Entry) (input : Input C) (r : Run C)
    (c : Cand) : Run C → Prop
  | full : Turn env lim prev input r c { r with truncated := true }
  | waits : Turn env lim prev input r c { r with pending := r.pending + 1 }
  | keeps (old : Entry) (content : C) (pending : ℕ) : r.keep.size < lim.maxFiles →
      r.total + c.size ≤ lim.maxBytes → prev.get? c.rel = some old →
      stagedFile r.area c.rel = some content → r.pending ≤ pending →
      Turn env lim prev input r c { r with
        keep := r.keep.set c.rel old, total := r.total + old.size, pending }
  | vanished : input.opened c.rel = .notRegular →
      Turn env lim prev input r c { r with
        skipped := { r.skipped with special := r.skipped.special + 1 } }
  | failed (t : Temporary C) :
      Turn env lim prev input r c { r.unreadable with
        area := t.apply (tmpPath input.pid c.path) r.area }
  | copied (content : C) (mtime : ℤ) : r.keep.size < lim.maxFiles →
      r.total + c.size ≤ lim.maxBytes →
      Turn env lim prev input r c { r with
        keep := r.keep.set c.rel ⟨c.rel, env.len content, mtime, env.sha256 content⟩
        total := r.total + env.len content
        copies := r.copies + 1
        area := (r.area.erase (tmpPath input.pid c.path)).set c.rel
          (written r.area (tmpPath input.pid c.path) content) }

theorem turn_copyAndKeep (prev : Dict PyStr Entry) (input : Input C) {r : Run C} {c : Cand}
    (hsize : r.keep.size < lim.maxFiles) (htotal : r.total + c.size ≤ lim.maxBytes) :
    Turn env lim prev input r c (copyAndKeep env lim input r c) := by
  unfold copyAndKeep copyOne
  cases hopened : input.opened (relText c.path) with
  | refused => exact .failed .asBefore
  | notRegular => exact .vanished hopened
  | regular mtime transfer =>
    cases transfer with
    | failed t => exact .failed t
    | read content =>
      dsimp only
      split_ifs with hlarge
      · exact .failed .gone
      · exact .copied content mtime hsize htotal

variable (env lim) in
theorem turn_stageOne (prev : Dict PyStr Entry) (input : Input C) (r : Run C) (c : Cand) :
    Turn env lim prev input r c (stageOne env lim prev input r c) := by
  unfold stageOne
  split
  · exact .full
  · rename_i hfull
    have hsize : r.keep.size < lim.maxFiles := by omega
    have htotal : r.total + c.size ≤ lim.maxBytes := by omega
    split
    · rename_i old content hprev hstaged
      split_ifs with hsame
      · rw [← hsame.1]
        exact .keeps old content r.pending hsize htotal hprev hstaged (Nat.le_refl _)
      · exact .keeps old content (r.pending + 1) hsize htotal hprev hstaged (Nat.le_succ _)
      · exact turn_copyAndKeep prev input hsize htotal
    · split_ifs
      · exact .waits
      · exact turn_copyAndKeep prev input hsize htotal

/-! ## The area under a turn -/

theorem stagedFile_eq_some {area : Area C} {p : PyStr} {content : C} :
    stagedFile area p = some content ↔ area.get? p = some (.file content) := by
  unfold stagedFile
  split
  · rename_i heq
    rw [heq, Option.some.injEq, Option.some.injEq, Staged.file.injEq]
  · rename_i hne
    constructor
    · exact fun h => by cases h
    · exact fun h => absurd h (hne content)

theorem written_of_ne_link {area : Area C} {tmp : PyStr} (h : area.get? tmp ≠ some .link)
    (content : C) : written area tmp content = .file content := by
  unfold written
  split
  · contradiction
  · rfl

namespace Temporary

variable (t : Temporary C) {tmp p : PyStr} {area : Area C}

theorem get?_apply_of_ne (h : p ≠ tmp) : (t.apply tmp area).get? p = area.get? p := by
  cases t with
  | asBefore => rfl
  | gone => rw [apply, Dict.get?_erase, if_neg h]
  | left content => rw [apply, Dict.get?_set, if_neg h]

theorem get?_apply_ne_link (h : area.get? p ≠ some .link) :
    (t.apply tmp area).get? p ≠ some .link := by
  by_cases hp : p = tmp
  · subst hp
    cases t with
    | asBefore => exact h
    | gone => simp [apply, Dict.get?_erase]
    | left content => simp [apply, Dict.get?_set, written_of_ne_link h]
  · rw [t.get?_apply_of_ne hp]
    exact h

end Temporary

/-! ## The loop -/

variable (env) in
/-- The file of an entry is staged, as the entry says. -/
def Matches (area : Area C) (e : Entry) : Prop :=
  ∃ content, stagedFile area e.path = some content ∧ env.len content = e.size ∧
    env.sha256 content = e.sha256

instance (area : Area C) (e : Entry) : Decidable (Matches env area e) :=
  decidable_of_iff (∃ content ∈ stagedFile area e.path,
    env.len content = e.size ∧ env.sha256 content = e.sha256) Iff.rfl

/-- An entry of the manifest before, whose staged file is the one that was there. -/
def Carried (s : State C) (area : Area C) (e : Entry) : Prop :=
  (∃ doc, s.manifest = some doc ∧ e ∈ doc.files) ∧
    ∃ content, stagedFile s.area e.path = some content ∧ stagedFile area e.path = some content

theorem Matches.congr {area area' : Area C} {e : Entry} (h : Matches env area e)
    (heq : area'.get? e.path = area.get? e.path) : Matches env area' e := by
  obtain ⟨content, hs, hlen, hsha⟩ := h
  rw [stagedFile_eq_some, ← heq, ← stagedFile_eq_some] at hs
  exact ⟨content, hs, hlen, hsha⟩

theorem Carried.congr {s : State C} {area area' : Area C} {e : Entry} (h : Carried s area e)
    (heq : area'.get? e.path = area.get? e.path) : Carried s area' e := by
  obtain ⟨hdoc, content, hs, hs'⟩ := h
  rw [stagedFile_eq_some, ← heq, ← stagedFile_eq_some] at hs'
  exact ⟨hdoc, content, hs, hs'⟩

/-- The entries of `prev` are entries of the manifest. -/
theorem prevOf_get? {manifest : Option Doc} {k : PyStr} {e : Entry}
    (h : (prevOf manifest).get? k = some e) :
    e.path = k ∧ ∃ doc, manifest = some doc ∧ e ∈ doc.files := by
  have hfold : ∀ (l : List Entry) (d : Dict PyStr Entry),
      (l.foldl (fun d e => d.set e.path e) d).get? k = some e →
      d.get? k = some e ∨ (e.path = k ∧ e ∈ l) := by
    intro l
    induction l with
    | nil => exact fun d h => .inl h
    | cons x l ih =>
      intro d h
      rcases ih _ h with h | ⟨hk, hmem⟩
      · rw [Dict.get?_set] at h
        split_ifs at h with hk
        · cases h
          exact .inr ⟨hk.symm, List.mem_cons_self⟩
        · exact .inl h
      · exact .inr ⟨hk, List.mem_cons_of_mem x hmem⟩
  rcases hfold _ _ h with h | ⟨hk, hmem⟩
  · rw [Dict.get?_empty] at h
    cases h
  · cases manifest with
    | none => cases hmem
    | some doc => exact ⟨hk, doc, rfl, hmem⟩

variable (env lim) in
/-- The loop over the candidates has come past `done`. -/
structure Keeps (s : State C) (done : List Cand) (r : Run C) : Prop where
  path_eq : ∀ k e, r.keep.get? k = some e → e.path = k
  key_mem : ∀ k e, r.keep.get? k = some e → k ∈ done.map Cand.rel
  stands : ∀ k e, r.keep.get? k = some e → Matches env r.area e ∨ Carried s r.area e
  size_le : r.keep.size ≤ lim.maxFiles
  total_eq : r.total = (r.keep.items.map fun e => e.2.size).sum
  total_le : (∀ c ∈ done, ∀ e, r.keep.get? c.rel = some e → e.size ≤ c.size) →
    r.total ≤ lim.maxBytes
  untouched : ∀ p, p ∉ done.map Cand.rel → ¬ IsTemporary p → r.area.get? p = s.area.get? p
  no_links : ∀ p, IsTemporary p → r.area.get? p ≠ some .link

namespace Keeps

variable {s : State C} {done : List Cand} {r : Run C} {c : Cand}

/-- A turn that keeps nothing and touches no more than a temporary file. -/
theorem idle (h : Keeps env lim s done r) (hdone : ∀ c ∈ done, Allowed env c.path) {r' : Run C}
    (hkeep : r'.keep = r.keep) (htotal : r'.total = r.total)
    (harea : ∀ p, ¬ IsTemporary p → r'.area.get? p = r.area.get? p)
    (hlinks : ∀ p, IsTemporary p → r'.area.get? p ≠ some .link) :
    Keeps env lim s (done ++ [c]) r' where
  path_eq k e he := h.path_eq k e (hkeep ▸ he)
  key_mem k e he := by
    rw [List.map_append]
    exact List.mem_append_left _ (h.key_mem k e (hkeep ▸ he))
  stands k e he := by
    have he' := hkeep ▸ he
    obtain ⟨c', hc', hk⟩ := List.mem_map.1 (h.key_mem k e he')
    have hp : r'.area.get? e.path = r.area.get? e.path := by
      apply harea
      rw [h.path_eq k e he', ← hk]
      exact (hdone c' hc').not_isTemporary
    exact (h.stands k e he').imp (·.congr hp) (·.congr hp)
  size_le := hkeep ▸ h.size_le
  total_eq := by rw [htotal, hkeep, h.total_eq]
  total_le hle := by
    rw [htotal]
    apply h.total_le
    intro c' hc' e he
    exact hle c' (List.mem_append_left _ hc') e (hkeep ▸ he)
  untouched p hp htmp := by
    rw [List.map_append, List.mem_append, not_or] at hp
    rw [harea p htmp, h.untouched p hp.1 htmp]
  no_links := hlinks

/-- A turn that keeps an entry. -/
theorem keep (h : Keeps env lim s done r) (hdone : ∀ c ∈ done, Allowed env c.path)
    (hnew : c.rel ∉ done.map Cand.rel) (hsize : r.keep.size < lim.maxFiles)
    (htotal : r.total + c.size ≤ lim.maxBytes) {e : Entry} (hpath : e.path = c.rel) {r' : Run C}
    (hkeep : r'.keep = r.keep.set c.rel e) (htotal' : r'.total = r.total + e.size)
    (harea : ∀ p, p ≠ c.rel → ¬ IsTemporary p → r'.area.get? p = r.area.get? p)
    (hlinks : ∀ p, IsTemporary p → r'.area.get? p ≠ some .link)
    (hstands : Matches env r'.area e ∨ Carried s r'.area e) :
    Keeps env lim s (done ++ [c]) r' := by
  have hnone : r.keep.get? c.rel = none := by
    rw [Option.eq_none_iff_forall_ne_some]
    exact fun e he => hnew (h.key_mem _ e he)
  have hget : ∀ k e', r'.keep.get? k = some e' → k = c.rel ∧ e' = e ∨ r.keep.get? k = some e' := by
    intro k e' he
    rw [hkeep, Dict.get?_set] at he
    split_ifs at he with hk
    · exact .inl ⟨hk, (Option.some.inj he).symm⟩
    · exact .inr he
  constructor
  case path_eq =>
    intro k e' he
    rcases hget k e' he with ⟨rfl, rfl⟩ | he
    · exact hpath
    · exact h.path_eq k e' he
  case key_mem =>
    intro k e' he
    rw [List.map_append, List.mem_append]
    rcases hget k e' he with ⟨rfl, -⟩ | he
    · exact .inr (List.mem_singleton_self _)
    · exact .inl (h.key_mem k e' he)
  case stands =>
    intro k e' he
    rcases hget k e' he with ⟨-, rfl⟩ | he
    · exact hstands
    · have hk := h.key_mem k e' he
      have hp : r'.area.get? e'.path = r.area.get? e'.path := by
        rw [h.path_eq k e' he]
        obtain ⟨c', hc', rfl⟩ := List.mem_map.1 hk
        exact harea _ (fun heq => hnew (heq ▸ hk)) (hdone c' hc').not_isTemporary
      exact (h.stands k e' he).imp (·.congr hp) (·.congr hp)
  case size_le =>
    rw [hkeep, Dict.size_set_of_none hnone]
    exact hsize
  case total_eq =>
    rw [htotal', hkeep, Dict.items_set_of_none hnone, h.total_eq]
    simp
  case total_le =>
    intro hle
    have hc := hle c (by simp) e (by rw [hkeep, Dict.get?_set, if_pos rfl])
    omega
  case untouched =>
    intro p hp htmp
    rw [List.map_append, List.mem_append, not_or] at hp
    rw [harea p (by simpa using hp.2) htmp, h.untouched p hp.1 htmp]
  case no_links => exact hlinks

theorem step (h : Keeps env lim s done r) (hdone : ∀ c ∈ done, Allowed env c.path)
    (hnew : c.rel ∉ done.map Cand.rel) (hc : Allowed env c.path) (input : Input C) :
    Keeps env lim s (done ++ [c]) (stageOne env lim (prevOf s.manifest) input r c) := by
  have htmp : IsTemporary (tmpPath input.pid c.path) :=
    ⟨input.pid, c.path, fun n hn => (hc.names n hn).entry, rfl⟩
  have hrel : ¬ IsTemporary c.rel := hc.not_isTemporary
  have hturn := turn_stageOne env lim (prevOf s.manifest) input r c
  generalize stageOne env lim (prevOf s.manifest) input r c = r' at hturn ⊢
  cases hturn with
  | full => exact h.idle hdone rfl rfl (fun _ _ => rfl) h.no_links
  | waits => exact h.idle hdone rfl rfl (fun _ _ => rfl) h.no_links
  | vanished => exact h.idle hdone rfl rfl (fun _ _ => rfl) h.no_links
  | failed t =>
    refine h.idle hdone rfl rfl ?_ ?_
    · intro p hp
      exact t.get?_apply_of_ne fun heq => hp (heq ▸ htmp)
    · exact fun p hp => t.get?_apply_ne_link (h.no_links p hp)
  | keeps old content pending hsize htotal hprev hstaged =>
    obtain ⟨hpath, hdoc⟩ := prevOf_get? hprev
    rw [← hpath] at hstaged
    have hbefore := stagedFile_eq_some.1 hstaged
    rw [h.untouched old.path (hpath ▸ hnew) (hpath ▸ hrel)] at hbefore
    exact h.keep hdone hnew hsize htotal hpath rfl rfl (fun _ _ _ => rfl) h.no_links
      (.inr ⟨hdoc, content, stagedFile_eq_some.2 hbefore, hstaged⟩)
  | copied content mtime hsize htotal =>
    refine h.keep hdone hnew hsize htotal rfl rfl rfl ?_ ?_ (.inl ⟨content, ?_, rfl, rfl⟩)
    · intro p hp hp'
      have hne : p ≠ tmpPath input.pid c.path := fun heq => hp' (heq ▸ htmp)
      rw [Dict.get?_set, if_neg hp, Dict.get?_erase, if_neg hne]
    · intro p hp
      have hne : p ≠ c.rel := fun heq => hrel (heq ▸ hp)
      rw [Dict.get?_set, if_neg hne, Dict.get?_erase]
      split_ifs
      · simp
      · exact h.no_links p hp
    · rw [stagedFile_eq_some, Dict.get?_set, if_pos rfl,
        written_of_ne_link (h.no_links _ htmp)]

theorem run {l : List Cand} (h : Keeps env lim s done r)
    (hl : ∀ c ∈ done ++ l, Allowed env c.path) (hn : ((done ++ l).map Cand.rel).Nodup)
    (input : Input C) :
    Keeps env lim s (done ++ l) (l.foldl (stageOne env lim (prevOf s.manifest) input) r) := by
  induction l generalizing done r with
  | nil =>
    rw [List.append_nil]
    exact h
  | cons c l ih =>
    have hnew : c.rel ∉ done.map Cand.rel := by
      rw [List.map_append, List.nodup_append] at hn
      exact fun hc => hn.2.2 _ hc c.rel (by simp) rfl
    have hsplit : done ++ c :: l = (done ++ [c]) ++ l := by simp
    rw [hsplit] at hl hn ⊢
    exact ih (h.step (fun c' hc' => hl c' (by simp [hc'])) hnew (hl c (by simp)) input) hl hn

end Keeps

variable (env lim) in
/-- The loop over the first candidates. -/
theorem keeps_runOver (input : Input C) {s : State C}
    (hlinks : ∀ p, IsTemporary p → s.area.get? p ≠ some .link) {cands : List Cand}
    (h : cands <+: candidates env lim input.folder) :
    Keeps env lim s cands (runOver env lim input s cands) := by
  have hstart : ∀ truncated skipped,
      Keeps env lim s [] ⟨Dict.empty, 0, 0, 0, truncated, skipped, s.area⟩ := by
    intro truncated skipped
    constructor
    case size_le => exact Nat.zero_le _
    case total_eq => rfl
    case total_le => exact fun _ => Nat.zero_le _
    case untouched => exact fun _ _ _ => rfl
    case no_links => exact hlinks
    all_goals
      intro k e he
      cases he
  refine (hstart _ _).run ?_ ?_ input
  · exact fun c hc => (of_mem_candidates (h.subset hc)).1
  · exact (nodup_rels env lim input.folder).sublist (h.sublist.map _)

/-! ## A pass and a history of passes -/

theorem mem_sortedFiles {keep : Dict PyStr Entry} {e : Entry} :
    e ∈ sortedFiles keep ↔ ∃ k, keep.get? k = some e := by
  simp [sortedFiles, Dict.get?_eq_some_iff]

theorem cleanUp_get? {r : Run C} {stays : PyStr → Bool} {p : PyStr} {x : Staged C} :
    (cleanUp r stays).get? p = some x ↔
      r.area.get? p = some x ∧ ((r.keep.get? p).isSome = true ∨ stays p = true) := by
  rw [cleanUp, Dict.get?_filter, Option.filter_eq_some_iff, Bool.or_eq_true]

theorem cleanUp_get?_of_kept {r : Run C} (stays : PyStr → Bool) {p : PyStr} {e : Entry}
    (h : r.keep.get? p = some e) : (cleanUp r stays).get? p = r.area.get? p := by
  apply Option.ext
  intro x
  rw [cleanUp_get?, h]
  simp

/-- No pass leaves a link at a temporary file's path. -/
theorem pass_no_links {s : State C} (hlinks : ∀ p, IsTemporary p → s.area.get? p ≠ some .link)
    (input : Input C) :
    ∀ p, IsTemporary p → (pass env lim s input).area.get? p ≠ some .link := by
  have hclean : ∀ (r : Run C) stays, (∀ p, IsTemporary p → r.area.get? p ≠ some .link) →
      ∀ p, IsTemporary p → (cleanUp r stays).get? p ≠ some .link :=
    fun _ _ hr p hp hlink => hr p hp (cleanUp_get?.1 hlink).1
  have hfull : ∀ p, IsTemporary p → (fullRun env lim input s).area.get? p ≠ some .link :=
    (keeps_runOver env lim input hlinks (List.prefix_refl _)).no_links
  unfold pass
  split
  · exact hlinks
  · rename_i done temporary cleaned _
    have hsome := (keeps_runOver env lim input hlinks
      (List.take_prefix done _)).no_links
    apply hclean
    dsimp only
    split
    · exact fun p hp => temporary.get?_apply_ne_link (hsome p hp)
    · exact hsome
  · exact hclean _ _ hfull
  · dsimp only
    split_ifs
    · exact hclean _ _ hfull
    · exact hclean _ _ hfull

variable (env lim) in
/-- What a pass over the area of `s` leaves in `s'` under a manifest. -/
structure Leaves (s : State C) (input : Input C) (s' : State C) (doc : Doc) : Prop where
  stands : ∀ e ∈ doc.files, Matches env s'.area e ∨ Carried s s'.area e
  count : doc.files.length ≤ lim.maxFiles
  total : (∀ c ∈ candidates env lim input.folder, ∀ e ∈ doc.files, e.path = c.rel →
    e.size ≤ c.size) → (doc.files.map Entry.size).sum ≤ lim.maxBytes
  others : ∀ p x, s'.area.get? p = some x → (∃ e ∈ doc.files, e.path = p) ∨ input.survives p = true

theorem leaves_pass {s : State C} {input : Input C}
    (hlinks : ∀ p, IsTemporary p → s.area.get? p ≠ some .link) (hw : Writes env lim s input) :
    ∃ doc, (pass env lim s input).manifest = some doc ∧
      Leaves env lim s input (pass env lim s input) doc := by
  have h : Keeps env lim s _ (fullRun env lim input s) :=
    keeps_runOver env lim input hlinks (List.prefix_refl _)
  obtain ⟨hending, hencodable⟩ := hw
  have hpass : pass env lim s input = ⟨cleanUp (fullRun env lim input s) input.survives,
      some (docOf input (fullRun env lim input s))⟩ := by
    unfold pass
    rw [hending]
    exact if_pos hencodable
  rw [hpass]
  refine ⟨_, rfl, ?_, ?_, ?_, ?_⟩
  · intro e he
    obtain ⟨k, hk⟩ := mem_sortedFiles.1 he
    have hp : (cleanUp (fullRun env lim input s) input.survives).get? e.path =
        (fullRun env lim input s).area.get? e.path := by
      apply cleanUp_get?_of_kept
      rw [h.path_eq k e hk]
      exact hk
    exact (h.stands k e hk).imp (·.congr hp) (·.congr hp)
  · rw [docOf, sortedFiles, List.length_map, List.length_insertionSort]
    exact h.size_le
  · intro hle
    have hsum : ((sortedFiles (fullRun env lim input s).keep).map Entry.size).sum =
        (fullRun env lim input s).total := by
      rw [h.total_eq, sortedFiles, List.map_map]
      exact ((List.perm_insertionSort _ _).map _).sum_eq
    rw [docOf, hsum]
    apply h.total_le
    intro c hc e he
    exact hle c hc e (mem_sortedFiles.2 ⟨_, he⟩) (h.path_eq _ e he)
  · intro p x hx
    refine (cleanUp_get?.1 hx).2.imp ?_ id
    intro hkept
    obtain ⟨e, he⟩ := Option.isSome_iff_exists.1 hkept
    exact ⟨e, mem_sortedFiles.2 ⟨p, he⟩, h.path_eq p e he⟩

variable (env lim) in
/-- Every pass replaces the manifest. -/
def AllWrite : State C → List (Input C) → Prop
  | _, [] => True
  | s, input :: inputs => Writes env lim s input ∧ AllWrite (pass env lim s input) inputs

/-- Passes that all replace the manifest keep the area up to it. -/
theorem matches_history {inputs : List (Input C)} {s : State C}
    (hlinks : ∀ p, IsTemporary p → s.area.get? p ≠ some .link)
    (hs : ∀ doc, s.manifest = some doc → ∀ e ∈ doc.files, Matches env s.area e)
    (hw : AllWrite env lim s inputs) :
    ∀ doc, (inputs.foldl (pass env lim) s).manifest = some doc →
      ∀ e ∈ doc.files, Matches env (inputs.foldl (pass env lim) s).area e := by
  induction inputs generalizing s with
  | nil => exact hs
  | cons input inputs ih =>
    refine ih (pass_no_links hlinks input) ?_ hw.2
    obtain ⟨doc, hdoc, hleaves⟩ := leaves_pass hlinks hw.1
    intro doc' hdoc' e he
    cases hdoc.symm.trans hdoc'
    rcases hleaves.stands e he with h | ⟨⟨old, hold, hmem⟩, content, hbefore, hafter⟩
    · exact h
    · apply (hs old hold e hmem).congr
      rw [stagedFile_eq_some.1 hbefore, stagedFile_eq_some.1 hafter]

/-- **The manifest and the area.** After a pass that replaces the manifest, over an area with no
link at a temporary file's path, every entry has its file staged just so or was carried over with a
staged file that nobody touched; the entries are within the cap, their bytes as far as the files had
not grown since the scan, and every other file is gone that could be removed. From an empty area,
as long as every pass replaces the manifest, every entry has its file staged just so. -/
theorem passes_leave (env : Env C) (lim : Limits) :
    (∀ (s : State C) (input : Input C), (∀ p, IsTemporary p → s.area.get? p ≠ some .link) →
      Writes env lim s input →
      ∃ doc, (pass env lim s input).manifest = some doc ∧
        Leaves env lim s input (pass env lim s input) doc) ∧
    (∀ inputs, AllWrite env lim State.empty inputs →
      ∀ doc, (inputs.foldl (pass env lim) State.empty).manifest = some doc →
        ∀ e ∈ doc.files, Matches env (inputs.foldl (pass env lim) State.empty).area e) := by
  constructor
  · intro s input hlinks hw
    exact leaves_pass hlinks hw
  · intro inputs hw
    refine matches_history ?_ ?_ hw
    · intro p _ h
      cases h
    · intro doc h
      cases h

/-! ## Examples -/

namespace Sample

/-- A content is a length and a number that decides its hash. -/
def stager : Env (ℕ × ℕ) where
  lower s := s.map fun c => if 65 ≤ c.val ∧ c.val ≤ 90 then point (c.val + 32) else c
  lower_ascii _ _ := rfl
  len := Prod.fst
  sha256 content := List.replicate 64 (if content.2 = 0 then '0' else '1')

/-- `a.txt`, `aa.txt` and so on. -/
def fileName (n : ℕ) : PyStr := List.replicate (n + 1) (ch 'a') ++ lit ".txt"

theorem fileName_injective : Function.Injective fileName := by
  intro m n h
  have := congrArg List.length h
  simp only [fileName, List.length_append, List.length_replicate] at this
  omega

theorem slash_notMem_fileName (n : ℕ) : ch '/' ∉ fileName n := by
  have hlit : ch '/' ∉ lit ".txt" := by decide
  have hchar : ch '/' ≠ ch 'a' := by decide
  rw [fileName, List.mem_append, List.mem_replicate]
  tauto

/-- A folder of files. -/
def folder (sizes : List ℕ) : Folder where
  item := .dir true (sizes.zipIdx.map fun e => (fileName e.2, .file e.1 0))
  wellFormed := by
    apply Item.WellFormed.dir
    · rw [List.map_map]
      have hidx : (sizes.zipIdx.map Prod.snd).Nodup := by
        rw [List.zipIdx_map_snd]
        exact List.nodup_range'
      have := hidx.map fileName_injective
      rwa [List.map_map] at this
    · intro e he
      obtain ⟨x, -, rfl⟩ := List.mem_map.1 he
      exact ⟨by simp [fileName], slash_notMem_fileName _⟩
    · intro e he
      obtain ⟨x, -, rfl⟩ := List.mem_map.1 he
      exact .file

/-- A pass over a folder in which every file that is opened has the content. -/
def input (sizes : List ℕ) (content : ℕ × ℕ) (ending : Ending (ℕ × ℕ)) (survives : PyStr → Bool) :
    Input (ℕ × ℕ) where
  folder := folder sizes
  opened _ := .regular 0 (.read content)
  pid := 1
  survives := survives
  now := 0
  ending := ending

/-- A file of one byte is copied into the empty area, and kept by the pass after. -/
theorem passes_leave_one :
    (∃ doc,
      (pass stager stageLimits State.empty (input [1] (1, 0) .finished fun _ => false)).manifest =
        some doc ∧
      Leaves stager stageLimits State.empty (input [1] (1, 0) .finished fun _ => false)
        (pass stager stageLimits State.empty (input [1] (1, 0) .finished fun _ => false)) doc) ∧
    ∀ doc, ((List.replicate 2 (input [1] (1, 0) .finished fun _ => false)).foldl
        (pass stager stageLimits) State.empty).manifest = some doc →
      ∀ e ∈ doc.files, Matches stager ((List.replicate 2 (input [1] (1, 0) .finished
        fun _ => false)).foldl (pass stager stageLimits) State.empty).area e :=
  ⟨(passes_leave stager stageLimits).1 State.empty _ (fun _ _ h => by cases h)
      ⟨rfl, by decide⟩,
    (passes_leave stager stageLimits).2 _
      ⟨⟨rfl, by decide⟩, ⟨rfl, by decide⟩, trivial⟩⟩

/-- `a.txt` is listed as a file of one byte, and something stands in the area. -/
def listed (p : PyStr) (x : Staged (ℕ × ℕ)) : State (ℕ × ℕ) where
  area := Dict.empty.set p x
  manifest := some ⟨0, [⟨fileName 0, 1, 0, stager.sha256 (1, 0)⟩], .none, 0, false⟩

/-- Some entry of the manifest has no staged file as it says. -/
def Astray (s : State (ℕ × ℕ)) : Prop :=
  ∃ doc ∈ s.manifest, ∃ e ∈ doc.files, ¬ Matches stager s.area e

instance (s : State (ℕ × ℕ)) : Decidable (Astray s) := inferInstanceAs (Decidable (∃ _ ∈ _, _))

/-- Where the manifest and the area part: a staged file of another content that has the size and the
time of the one listed is not looked into; a pass that cannot write its manifest leaves the one
before; a link at a temporary file's path is moved to the place of the copy; files that grow between
the scan and the copy exceed the bytes that are allowed; and what cannot be removed stays. -/
theorem passes_fall_short :
    Astray (pass stager stageLimits (listed (fileName 0) (.file (1, 1)))
      (input [1] (1, 0) .finished fun _ => false)) ∧
    Astray (pass stager stageLimits (listed (fileName 0) (.file (1, 0)))
      (input [2] (2, 1) .unwritten fun _ => false)) ∧
    Astray (pass stager stageLimits (listed (tmpPath 1 [fileName 0]) .link)
      (input [1] (1, 0) .finished fun _ => false)) ∧
    (∃ doc ∈ (pass stager stageLimits State.empty
        (input (List.replicate 21 0) (26214400, 0) .finished fun _ => false)).manifest,
      stageLimits.maxBytes < (doc.files.map Entry.size).sum) ∧
    (pass stager stageLimits (listed (fileName 1) .special)
      (input [1] (1, 0) .finished fun _ => true)).area.get? (fileName 1) = some .special ∧
    (∀ doc ∈ (pass stager stageLimits (listed (fileName 1) .special)
        (input [1] (1, 0) .finished fun _ => true)).manifest,
      ∀ e ∈ doc.files, e.path ≠ fileName 1) := by
  refine ⟨?_, ?_, ?_, ?_, ?_, ?_⟩
  · decide
  · decide
  · decide
  · decide
  · decide
  · decide

end Sample

end RagLeap.Staging
