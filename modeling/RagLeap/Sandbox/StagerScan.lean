import RagLeap.Sandbox.Stager

/-!
# What the stager's scan finds

`scan_adds`: every candidate is a file of the folder, at a path the stager may stage, and no path
comes up twice. `mem_scan_of_complete`: a scan that was not cut off and could ask everything has
found every such file that is not too large.
-/

namespace RagLeap.Staging

open PyStr JsonText Sandbox

/-! ## Paths -/

/-- The file at a path, with its size and time. -/
def fileAt : List PyStr → Item → Option (ℕ × ℤ)
  | [], .file size mtime => some (size, mtime)
  | name :: path, .dir _ entries => (entries.lookup name).bind (fileAt path)
  | _, _ => none

theorem splitOn_relText {path : List PyStr} (hne : path ≠ [])
    (h : ∀ n ∈ path, IsEntryName n) : (relText path).splitOn (ch '/') = path :=
  List.splitOn_intercalate (ch '/') (fun n hn => (h n hn).slash_notMem) hne

theorem relText_injective {path path' : List PyStr} (hne : path ≠ []) (hne' : path' ≠ [])
    (h : ∀ n ∈ path, IsEntryName n) (h' : ∀ n ∈ path', IsEntryName n)
    (heq : relText path = relText path') : path = path' := by
  rw [← splitOn_relText hne h, ← splitOn_relText hne' h', heq]

theorem fileAt_nil {item : Item} {size : ℕ} {mtime : ℤ} (h : fileAt [] item = some (size, mtime)) :
    item = .file size mtime := by
  unfold fileAt at h
  split at h
  · cases h
    rfl
  · contradiction
  · cases h

theorem fileAt_cons {name : PyStr} {rest : List PyStr} {item : Item} {x : ℕ × ℤ}
    (h : fileAt (name :: rest) item = some x) :
    ∃ listable entries sub, item = .dir listable entries ∧ entries.lookup name = some sub ∧
      fileAt rest sub = some x := by
  unfold fileAt at h
  split at h
  · contradiction
  · rename_i heq
    cases heq
    obtain ⟨sub, hsub, h⟩ := Option.bind_eq_some_iff.1 h
    exact ⟨_, _, sub, rfl, hsub, h⟩
  · cases h

variable {C : Type} (env : Env C) (lim : Limits)

/-- A name the scan does not pass over. -/
structure Open (n : PyStr) : Prop where
  entry : IsEntryName n
  not_denied : denied env.lower n = false

/-- What the scan asks of a path, apart from how deep it lies. -/
structure Allowed (path : List PyStr) : Prop where
  ne_nil : path ≠ []
  names : ∀ n ∈ path, Open env n
  extension : ∀ n ∈ path.getLast?, hasExtension env n = true
  length_le : (relText path).length ≤ relMax

/-- A candidate in the item at `base`, at most `depth` levels below it. -/
structure Found (depth : ℕ) (base : List PyStr) (item : Item) (c : Cand) : Prop where
  allowed : Allowed env c.path
  size_le : c.size ≤ lim.maxFile
  below : ∃ rest, rest ≠ [] ∧ rest.length ≤ depth ∧ c.path = base ++ rest ∧
    fileAt rest item = some (c.size, c.mtime)

/-! ## What a stretch of the scan adds -/

/-- The scan goes on from `s` to `s'`: what it adds satisfies `P`, no path twice. -/
structure Adds (P : Cand → Prop) (s s' : Scan) : Prop where
  truncated : s.truncated = true → s'.truncated = true
  unreadable_le : s.skipped.unreadable ≤ s'.skipped.unreadable
  cands : ∃ cs, s'.cands = s.cands ++ cs ∧ (cs.map Cand.path).Nodup ∧ ∀ c ∈ cs, P c

/-- Nothing was cut off, and everything could be asked. -/
structure Clean (s s' : Scan) : Prop where
  not_truncated : s'.truncated = false
  unreadable_eq : s'.skipped.unreadable = s.skipped.unreadable

variable {env lim} {P Q : Cand → Prop} {s s' s'' : Scan}

theorem Adds.refl (P : Cand → Prop) (s : Scan) : Adds P s s :=
  ⟨id, Nat.le_refl _, [], (List.append_nil _).symm, List.nodup_nil, by simp⟩

theorem Adds.mono (h : Adds P s s') (hPQ : ∀ c, P c → Q c) : Adds Q s s' := by
  obtain ⟨cs, hcs, hn, hP⟩ := h.cands
  exact ⟨h.truncated, h.unreadable_le, cs, hcs, hn, fun c hc => hPQ c (hP c hc)⟩

/-- Two stretches that add different paths. -/
theorem Adds.trans (h : Adds P s s') (h' : Adds Q s' s'')
    (hne : ∀ c d, P c → Q d → c.path ≠ d.path) : Adds (fun c => P c ∨ Q c) s s'' := by
  obtain ⟨cs, hcs, hn, hP⟩ := h.cands
  obtain ⟨ds, hds, hn', hQ⟩ := h'.cands
  refine ⟨fun ht => h'.truncated (h.truncated ht), h.unreadable_le.trans h'.unreadable_le,
    cs ++ ds, ?_, ?_, ?_⟩
  · rw [hds, hcs, List.append_assoc]
  · rw [List.map_append, List.nodup_append]
    refine ⟨hn, hn', ?_⟩
    intro a ha b hb
    obtain ⟨c, hc, rfl⟩ := List.mem_map.1 ha
    obtain ⟨d, hd, rfl⟩ := List.mem_map.1 hb
    exact hne c d (hP c hc) (hQ d hd)
  · intro c hc
    rcases List.mem_append.1 hc with hc | hc
    · exact .inl (hP c hc)
    · exact .inr (hQ c hc)

theorem Adds.subset (h : Adds P s s') {c : Cand} (hc : c ∈ s.cands) : c ∈ s'.cands := by
  obtain ⟨cs, hcs, -⟩ := h.cands
  rw [hcs]
  exact List.mem_append_left cs hc

/-- A clean scan was clean up to every point on the way. -/
theorem Clean.split (hc : Clean s s'') (h : Adds P s s') (h' : Adds Q s' s'') :
    Clean s s' ∧ Clean s' s'' := by
  have h1 := h.unreadable_le
  have h2 := h'.unreadable_le
  have h3 := hc.unreadable_eq
  refine ⟨⟨?_, by omega⟩, hc.not_truncated, by omega⟩
  rw [← Bool.not_eq_true]
  intro ht
  have := h'.truncated ht
  rw [hc.not_truncated] at this
  cases this

theorem Adds.of_cands_eq (P : Cand → Prop) (hc : s'.cands = s.cands)
    (ht : s.truncated = true → s'.truncated = true)
    (hu : s.skipped.unreadable ≤ s'.skipped.unreadable) : Adds P s s' :=
  ⟨ht, hu, [], by rw [hc, List.append_nil], List.nodup_nil, by simp⟩

/-! ## The entries of a directory -/

variable (env lim) in
/-- A candidate from some entries of the directory at `path`. -/
structure FoundIn (path : List PyStr) (l : List (PyStr × Item)) (c : Cand) : Prop where
  allowed : Allowed env c.path
  size_le : c.size ≤ lim.maxFile
  entry : ∃ name, (name, Item.file c.size c.mtime) ∈ l ∧ c.path = path ++ [name]

variable (lim) in
theorem scanFile_adds {path : List PyStr} {name : PyStr} (size : ℕ) (mtime : ℤ)
    (hpath : ∀ n ∈ path, Open env n) (hname : Open env name) (s : Scan) :
    Adds (FoundIn env lim path [(name, .file size mtime)]) s
      (scanFile env lim (path ++ [name]) name size mtime s) := by
  unfold scanFile
  split_ifs with hlen hext hsize
  · exact .of_cands_eq _ rfl id (Nat.le_refl _)
  · exact .of_cands_eq _ rfl id (Nat.le_refl _)
  · exact .of_cands_eq _ rfl id (Nat.le_refl _)
  · refine ⟨id, Nat.le_refl _, [_], rfl, List.nodup_singleton _, ?_⟩
    intro c hc
    rw [List.mem_singleton] at hc
    subst hc
    refine ⟨⟨by simp, ?_, ?_, Nat.le_of_not_lt hlen⟩, by simpa using hsize, name, by simp, rfl⟩
    · intro n hn
      rcases List.mem_append.1 hn with hn | hn
      · exact hpath n hn
      · exact List.mem_singleton.1 hn ▸ hname
    · intro n hn
      rw [List.getLast?_concat, Option.mem_some_iff] at hn
      subst hn
      simpa using hext

/-- A file the scan may stage becomes a candidate. -/
theorem mem_scanFile {path : List PyStr} {name : PyStr} {size : ℕ} {mtime : ℤ}
    (h : Allowed env (path ++ [name])) (hsize : size ≤ lim.maxFile) (s : Scan) :
    ⟨path ++ [name], size, mtime⟩ ∈
      (scanFile env lim (path ++ [name]) name size mtime s).cands := by
  have hlen := h.length_le
  have hext := h.extension name (by simp)
  unfold scanFile
  rw [if_neg (by omega), hext, if_neg (by simp), if_neg (by omega)]
  simp

variable (lim) in
theorem scanEntries_adds {path : List PyStr} (hpath : ∀ n ∈ path, Open env n)
    {l : List (PyStr × Item)} (hn : (l.map Prod.fst).Nodup) (hl : ∀ e ∈ l, IsEntryName e.1)
    (s : Scan) (dirs : List (List PyStr × Item)) :
    Adds (FoundIn env lim path l) s (scanEntries env lim path l s dirs).1 := by
  induction l generalizing s dirs with
  | nil => exact .refl _ s
  | cons e rest ih =>
    obtain ⟨name, item⟩ := e
    rw [List.map_cons, List.nodup_cons] at hn
    rw [List.forall_mem_cons] at hl
    have go : ∀ s' dirs', Adds (FoundIn env lim path [(name, item)]) s s' →
        Adds (FoundIn env lim path ((name, item) :: rest)) s
          (scanEntries env lim path rest s' dirs').1 := by
      intro s' dirs' h
      refine (h.trans (ih hn.2 hl.2 s' dirs') ?_).mono ?_
      · rintro c d ⟨-, -, n, hc, hcp⟩ ⟨-, -, m, hd, hdp⟩ heq
        rw [List.mem_singleton] at hc
        rw [hcp, hdp, List.append_cancel_left_eq, List.singleton_inj] at heq
        apply hn.1
        rw [← (Prod.mk.inj hc).1, heq]
        exact List.mem_map.2 ⟨_, hd, rfl⟩
      · rintro c (⟨ha, hs, n, hc, hp⟩ | ⟨ha, hs, n, hc, hp⟩)
        · rw [List.mem_singleton] at hc
          exact ⟨ha, hs, n, hc ▸ List.mem_cons_self, hp⟩
        · exact ⟨ha, hs, n, List.mem_cons_of_mem _ hc, hp⟩
    unfold scanEntries
    dsimp only
    split_ifs with hseen hdenied
    · exact .of_cands_eq _ rfl (fun _ => rfl) (Nat.le_refl _)
    · exact go _ _ (.of_cands_eq _ rfl id (Nat.le_refl _))
    · rw [Bool.not_eq_true] at hdenied
      cases item with
      | symlink => exact go _ _ (.of_cands_eq _ rfl id (Nat.le_refl _))
      | dir listable entries => exact go _ _ (.of_cands_eq _ rfl id (Nat.le_refl _))
      | special => exact go _ _ (.of_cands_eq _ rfl id (Nat.le_refl _))
      | broken => exact go _ _ (.of_cands_eq _ rfl id (Nat.le_succ _))
      | file size mtime =>
        apply go
        obtain ⟨ht, hu, cs, hcs, hcn, hc⟩ :=
          scanFile_adds lim size mtime hpath ⟨hl.1, hdenied⟩ { s with seen := s.seen + 1 }
        exact ⟨ht, hu, cs, hcs, hcn, hc⟩

variable (env lim) in
/-- The directories put on the stack are entries, in order, that are not protected. -/
theorem scanEntries_dirs (path : List PyStr) (l : List (PyStr × Item)) (s : Scan)
    (dirs : List (List PyStr × Item)) :
    ∃ ds, (scanEntries env lim path l s dirs).2 = dirs ++ ds ∧
      (ds.map Prod.fst).Sublist (l.map fun e => path ++ [e.1]) ∧
      ∀ d ∈ ds, ∃ name, (name, d.2) ∈ l ∧ d.1 = path ++ [name] ∧
        denied env.lower name = false := by
  induction l generalizing s dirs with
  | nil => exact ⟨[], (List.append_nil _).symm, List.Sublist.refl _, by simp⟩
  | cons e rest ih =>
    obtain ⟨name, item⟩ := e
    have skip : ∀ s', ∃ ds, (scanEntries env lim path rest s' dirs).2 = dirs ++ ds ∧
        (ds.map Prod.fst).Sublist (((name, item) :: rest).map fun e => path ++ [e.1]) ∧
        ∀ d ∈ ds, ∃ name', (name', d.2) ∈ (name, item) :: rest ∧ d.1 = path ++ [name'] ∧
          denied env.lower name' = false := by
      intro s'
      obtain ⟨ds, hds, hsub, hmem⟩ := ih s' dirs
      refine ⟨ds, hds, hsub.cons _, ?_⟩
      intro d hd
      obtain ⟨n, hn, hp, hden⟩ := hmem d hd
      exact ⟨n, List.mem_cons_of_mem _ hn, hp, hden⟩
    unfold scanEntries
    dsimp only
    split_ifs with hseen hdenied
    · exact ⟨[], (List.append_nil _).symm, List.nil_sublist _, by simp⟩
    · exact skip _
    · rw [Bool.not_eq_true] at hdenied
      cases item with
      | symlink => exact skip _
      | special => exact skip _
      | broken => exact skip _
      | file size mtime => exact skip _
      | dir listable entries =>
        obtain ⟨ds, hds, hsub, hmem⟩ := ih { s with seen := s.seen + 1 }
          (dirs ++ [(path ++ [name], .dir listable entries)])
        refine ⟨(path ++ [name], .dir listable entries) :: ds, ?_, hsub.cons_cons _, ?_⟩
        · rw [hds, List.append_assoc, List.singleton_append]
        · intro d hd
          rcases List.mem_cons.1 hd with rfl | hd
          · exact ⟨name, List.mem_cons_self, rfl, hdenied⟩
          · obtain ⟨n, hn, hp, hden⟩ := hmem d hd
            exact ⟨n, List.mem_cons_of_mem _ hn, hp, hden⟩

theorem scanEntries_subset {path : List PyStr} {l : List (PyStr × Item)}
    {dirs : List (List PyStr × Item)} {d : List PyStr × Item} (hd : d ∈ dirs) :
    d ∈ (scanEntries env lim path l s dirs).2 := by
  obtain ⟨ds, hds, -⟩ := scanEntries_dirs env lim path l s dirs
  rw [hds]
  exact List.mem_append_left ds hd

/-- A clean pass over some entries has found every file it may stage, and every directory. -/
theorem scanEntries_clean {path : List PyStr} (hpath : ∀ n ∈ path, Open env n)
    {l : List (PyStr × Item)} (hn : (l.map Prod.fst).Nodup) (hl : ∀ e ∈ l, IsEntryName e.1)
    {s : Scan} {dirs : List (List PyStr × Item)}
    (hclean : Clean s (scanEntries env lim path l s dirs).1) {name : PyStr} {item : Item}
    (hmem : (name, item) ∈ l) (hopen : denied env.lower name = false) :
    (∀ size mtime, item = .file size mtime → Allowed env (path ++ [name]) → size ≤ lim.maxFile →
      ⟨path ++ [name], size, mtime⟩ ∈ (scanEntries env lim path l s dirs).1.cands) ∧
    (∀ listable entries, item = .dir listable entries →
      (path ++ [name], item) ∈ (scanEntries env lim path l s dirs).2) := by
  induction l generalizing s dirs with
  | nil => cases hmem
  | cons e rest ih =>
    obtain ⟨name', item'⟩ := e
    rw [List.map_cons, List.nodup_cons] at hn
    rw [List.forall_mem_cons] at hl
    have later : ∀ s' dirs', s.skipped.unreadable ≤ s'.skipped.unreadable →
        Clean s (scanEntries env lim path rest s' dirs').1 →
        Clean s' (scanEntries env lim path rest s' dirs').1 := by
      intro s' dirs' hu hc
      have h := (scanEntries_adds lim hpath hn.2 hl.2 s' dirs').unreadable_le
      have := hc.unreadable_eq
      exact ⟨hc.not_truncated, by omega⟩
    rcases List.mem_cons.1 hmem with heq | hrest
    · obtain ⟨rfl, rfl⟩ := Prod.mk.inj heq
      constructor
      · rintro size mtime rfl hallowed hsize
        unfold scanEntries at hclean ⊢
        simp only [hopen, Bool.false_eq_true, if_false] at hclean ⊢
        split_ifs at hclean ⊢ with hseen
        · cases hclean.not_truncated
        · apply (scanEntries_adds lim hpath hn.2 hl.2 _ _).subset
          exact mem_scanFile hallowed hsize _
      · rintro listable entries rfl
        unfold scanEntries at hclean ⊢
        simp only [hopen, Bool.false_eq_true, if_false] at hclean ⊢
        split_ifs at hclean ⊢ with hseen
        · cases hclean.not_truncated
        · apply scanEntries_subset
          simp
    · unfold scanEntries at hclean ⊢
      dsimp only at hclean ⊢
      split_ifs at hclean ⊢ with hseen hdenied
      · cases hclean.not_truncated
      · exact ih hn.2 hl.2 (later _ _ (Nat.le_refl _) hclean) hrest
      · cases item' with
        | symlink => exact ih hn.2 hl.2 (later _ _ (Nat.le_refl _) hclean) hrest
        | dir => exact ih hn.2 hl.2 (later _ _ (Nat.le_refl _) hclean) hrest
        | special => exact ih hn.2 hl.2 (later _ _ (Nat.le_refl _) hclean) hrest
        | broken => exact ih hn.2 hl.2 (later _ _ (Nat.le_succ _) hclean) hrest
        | file size mtime =>
          apply ih hn.2 hl.2 (later _ _ ?_ hclean) hrest
          rw [Bool.not_eq_true] at hdenied
          exact (scanFile_adds lim size mtime hpath ⟨hl.1, hdenied⟩
            { s with seen := s.seen + 1 }).unreadable_le

/-! ## A directory and what it holds -/

/-- Stretches one after another that add different paths. -/
theorem foldl_adds {α : Type} {f : Scan → α → Scan} {R : α → Cand → Prop} {l : List α}
    (hf : ∀ a ∈ l, ∀ s, Adds (R a) s (f s a))
    (hne : l.Pairwise fun a b => ∀ c d, R a c → R b d → c.path ≠ d.path) (s : Scan) :
    Adds (fun c => ∃ a ∈ l, R a c) s (l.foldl f s) := by
  induction l generalizing s with
  | nil => exact .refl _ s
  | cons a l ih =>
    rw [List.pairwise_cons] at hne
    rw [List.forall_mem_cons] at hf
    refine ((hf.1 s).trans (ih hf.2 hne.2 (f s a)) ?_).mono ?_
    · rintro c d hc ⟨b, hb, hd⟩
      exact hne.1 b hb c d hc hd
    · rintro c (hc | ⟨b, hb, hc⟩)
      · exact ⟨a, List.mem_cons_self, hc⟩
      · exact ⟨b, List.mem_cons_of_mem a hb, hc⟩

theorem mem_sortItems {l : List (PyStr × Item)} {e : PyStr × Item} : e ∈ sortItems l ↔ e ∈ l :=
  List.mem_insertionSort _

theorem nodup_sortItems {l : List (PyStr × Item)} (h : (l.map Prod.fst).Nodup) :
    ((sortItems l).map Prod.fst).Nodup :=
  ((List.perm_insertionSort _ l).map _).nodup_iff.2 h

theorem nodup_children (path : List PyStr) {entries : List (PyStr × Item)}
    (h : (entries.map Prod.fst).Nodup) :
    ((sortItems entries).map fun e => path ++ [e.1]).Nodup := by
  have hmap : ((sortItems entries).map fun e => path ++ [e.1]) =
      ((sortItems entries).map Prod.fst).map fun n => path ++ [n] := by simp
  rw [hmap]
  refine (nodup_sortItems h).map ?_
  intro a b hab
  exact List.singleton_inj.1 (List.append_cancel_left hab)

section Dir

variable {path : List PyStr} {listable : Bool} {entries : List (PyStr × Item)} {left : ℕ}
  {c : Cand}

theorem FoundIn.found (hn : (entries.map Prod.fst).Nodup)
    (h : FoundIn env lim path (sortItems entries) c) :
    Found env lim (left + 1) path (.dir listable entries) c := by
  obtain ⟨ha, hs, name, hmem, hp⟩ := h
  refine ⟨ha, hs, [name], List.cons_ne_nil _ _, by simp, hp, ?_⟩
  rw [fileAt, (lookup_eq_some_iff_mem hn).2 (mem_sortItems.1 hmem), Option.bind_some, fileAt]

theorem Found.up (hn : (entries.map Prod.fst).Nodup) {name : PyStr} {item : Item}
    (hmem : (name, item) ∈ entries) (h : Found env lim left (path ++ [name]) item c) :
    Found env lim (left + 1) path (.dir listable entries) c := by
  obtain ⟨ha, hs, rest, -, hlen, hp, hfile⟩ := h
  refine ⟨ha, hs, name :: rest, List.cons_ne_nil _ _, Nat.succ_le_succ hlen, ?_, ?_⟩
  · rw [hp, List.append_assoc, List.singleton_append]
  · rw [fileAt, (lookup_eq_some_iff_mem hn).2 hmem, Option.bind_some, hfile]

end Dir

variable (env) in
/-- The directories below `path` whose turn is to come. -/
structure SubDirs (path : List PyStr) (entries : List (PyStr × Item))
    (ds : List (List PyStr × Item)) : Prop where
  nodup : (ds.map Prod.fst).Nodup
  entry : ∀ d ∈ ds, ∃ name, (name, d.2) ∈ entries ∧ d.1 = path ++ [name] ∧ Open env name

namespace SubDirs

variable {path : List PyStr} {entries : List (PyStr × Item)} {ds : List (List PyStr × Item)}

variable (env lim path) in
theorem of_scanEntries (hn : (entries.map Prod.fst).Nodup) (hl : ∀ e ∈ entries, IsEntryName e.1)
    (s : Scan) :
    SubDirs env path entries (scanEntries env lim path (sortItems entries) s []).2 := by
  obtain ⟨ds, hds, hsub, hmem⟩ := scanEntries_dirs env lim path (sortItems entries) s []
  rw [hds, List.nil_append]
  refine ⟨hsub.nodup (nodup_children path hn), ?_⟩
  intro d hd
  obtain ⟨name, hm, hp, hden⟩ := hmem d hd
  rw [mem_sortItems] at hm
  exact ⟨name, hm, hp, hl _ hm, hden⟩

theorem names (h : SubDirs env path entries ds) (hpath : ∀ n ∈ path, Open env n)
    {d : List PyStr × Item} (hd : d ∈ ds) : ∀ n ∈ d.1, Open env n := by
  obtain ⟨name, -, hp, hopen⟩ := h.entry d hd
  rw [hp]
  intro n hn
  rcases List.mem_append.1 hn with hn | hn
  · exact hpath n hn
  · exact List.mem_singleton.1 hn ▸ hopen

/-- What lies in one of them lies in no other. -/
theorem pairwise_ne (h : SubDirs env path entries ds) (left : ℕ) :
    ds.reverse.Pairwise fun a b => ∀ c d, Found env lim left a.1 a.2 c →
      Found env lim left b.1 b.2 d → c.path ≠ d.path := by
  rw [List.pairwise_reverse]
  refine (List.pairwise_map.1 h.nodup).imp_of_mem fun {a b} ha hb hab c d hc hd heq => hab ?_
  obtain ⟨m, -, hm, -⟩ := h.entry a ha
  obtain ⟨n, -, hn, -⟩ := h.entry b hb
  obtain ⟨rest, -, -, hd, -⟩ := hd.below
  obtain ⟨rest', -, -, hc, -⟩ := hc.below
  rw [hc, hd, hm, hn, List.append_assoc, List.append_assoc, List.append_cancel_left_eq] at heq
  rw [hm, hn, (List.cons.inj heq).1]

end SubDirs

variable (lim) in
/-- The turn of a directory finds files below it, at different paths. -/
theorem scanDir_adds (left : ℕ) {path : List PyStr} (hpath : ∀ n ∈ path, Open env n) {item : Item}
    (hw : item.WellFormed) (s : Scan) :
    Adds (Found env lim (left + 1) path item) s (scanDir env lim left (path, item) s) := by
  induction left generalizing path item s with
  | zero =>
    unfold scanDir
    split_ifs
    · exact .refl _ s
    · split
      · cases hw with
        | dir hn hl hw =>
          exact (scanEntries_adds lim hpath (nodup_sortItems hn)
            (fun e he => hl e (mem_sortItems.1 he)) s []).mono fun c hc => hc.found hn
      · exact .of_cands_eq _ rfl id (Nat.le_succ _)
  | succ left ih =>
    unfold scanDir
    split_ifs
    · exact .refl _ s
    · split
      · rename_i entries
        cases hw with
        | dir hn hl hw =>
          have hsub := SubDirs.of_scanEntries env lim path hn hl s
          have hentries := scanEntries_adds lim hpath (nodup_sortItems hn)
            (fun e he => hl e (mem_sortItems.1 he)) s []
          dsimp only
          generalize scanEntries env lim path (sortItems entries) s [] = r at hsub hentries ⊢
          have hdirs : Adds (fun c => ∃ a ∈ r.2.reverse, Found env lim (left + 1) a.1 a.2 c) r.1
              (r.2.reverse.foldl (fun s d => scanDir env lim left d s) r.1) := by
            refine foldl_adds ?_ (hsub.pairwise_ne (left + 1)) r.1
            intro a ha s'
            obtain ⟨m, hm, -⟩ := hsub.entry a (List.mem_reverse.1 ha)
            exact ih (hsub.names hpath (List.mem_reverse.1 ha)) (hw _ hm) s'
          refine (hentries.trans hdirs ?_).mono ?_
          · rintro c d ⟨-, -, n, -, hc⟩ ⟨a, ha, -, -, rest, hne, -, hd, -⟩ heq
            obtain ⟨m, -, hm, -⟩ := hsub.entry a (List.mem_reverse.1 ha)
            have hlen := congrArg List.length heq
            rw [hc, hd, hm] at hlen
            have := List.length_pos_of_ne_nil hne
            simp only [List.length_append, List.length_singleton] at hlen
            omega
          · rintro c (hc | ⟨a, ha, hc⟩)
            · exact hc.found hn
            · obtain ⟨m, hm, hp, -⟩ := hsub.entry a (List.mem_reverse.1 ha)
              rw [hp] at hc
              exact hc.up hn hm
      · exact .of_cands_eq _ rfl id (Nat.le_succ _)

/-- Each stretch of a clean run of them was clean. -/
theorem foldl_clean {α : Type} {f : Scan → α → Scan} {R : α → Cand → Prop} {l : List α}
    (hf : ∀ a ∈ l, ∀ s, Adds (R a) s (f s a))
    (hne : l.Pairwise fun a b => ∀ c d, R a c → R b d → c.path ≠ d.path)
    (hclean : Clean s (l.foldl f s)) {a : α} (ha : a ∈ l) :
    ∃ s', Clean s' (f s' a) ∧ ∀ c ∈ (f s' a).cands, c ∈ (l.foldl f s).cands := by
  induction l generalizing s with
  | nil => cases ha
  | cons b l ih =>
    rw [List.pairwise_cons] at hne
    rw [List.forall_mem_cons] at hf
    have hrest := foldl_adds hf.2 hne.2 (f s b)
    obtain ⟨h1, h2⟩ := hclean.split (hf.1 s) hrest
    rcases List.mem_cons.1 ha with rfl | ha
    · exact ⟨s, h1, fun c hc => hrest.subset hc⟩
    · exact ih hf.2 hne.2 h2 ha

/-- The clean turn of a directory has found every file below it that may be staged, as deep as the
scan goes. -/
theorem mem_scanDir_of_clean {left : ℕ} {path : List PyStr} (hpath : ∀ n ∈ path, Open env n)
    {item : Item} (hw : item.WellFormed) (hclean : Clean s (scanDir env lim left (path, item) s))
    {rest : List PyStr} {size : ℕ} {mtime : ℤ} (hfile : fileAt rest item = some (size, mtime))
    (hne : rest ≠ []) (hdepth : rest.length ≤ left + 1) (hallowed : Allowed env (path ++ rest))
    (hsize : size ≤ lim.maxFile) :
    ⟨path ++ rest, size, mtime⟩ ∈ (scanDir env lim left (path, item) s).cands := by
  induction left generalizing path item s rest with
  | zero =>
    obtain ⟨name, rest, rfl⟩ := List.exists_cons_of_ne_nil hne
    obtain rfl : rest = [] := List.length_eq_zero_iff.1 (by simpa using hdepth)
    obtain ⟨listable, entries, sub, rfl, hsub, hbelow⟩ := fileAt_cons hfile
    obtain rfl := fileAt_nil hbelow
    unfold scanDir at hclean ⊢
    split_ifs at hclean ⊢ with ht
    · cases ht.symm.trans hclean.not_truncated
    · cases hw with
      | dir hn hl hw =>
        cases listable with
        | false =>
          have := hclean.unreadable_eq
          simp at this
        | true =>
          rw [lookup_eq_some_iff_mem hn, ← mem_sortItems] at hsub
          exact (scanEntries_clean hpath (nodup_sortItems hn)
            (fun e he => hl e (mem_sortItems.1 he)) hclean hsub
            (hallowed.names name (by simp)).not_denied).1 size mtime rfl hallowed hsize
  | succ left ih =>
    obtain ⟨name, rest, rfl⟩ := List.exists_cons_of_ne_nil hne
    obtain ⟨listable, entries, sub, rfl, hsub, hbelow⟩ := fileAt_cons hfile
    unfold scanDir at hclean ⊢
    split_ifs at hclean ⊢ with ht
    · cases ht.symm.trans hclean.not_truncated
    · cases hw with
      | dir hn hl hw =>
        cases listable with
        | false =>
          have := hclean.unreadable_eq
          simp at this
        | true =>
          rw [lookup_eq_some_iff_mem hn] at hsub
          have hdirs := SubDirs.of_scanEntries env lim path hn hl s
          have hentries := scanEntries_adds lim hpath (nodup_sortItems hn)
            (fun e he => hl e (mem_sortItems.1 he)) s []
          have hname := hallowed.names name (by simp)
          have hfound := fun hc : Clean s (scanEntries env lim path (sortItems entries) s []).1 =>
            scanEntries_clean hpath (nodup_sortItems hn) (fun e he => hl e (mem_sortItems.1 he)) hc
              (mem_sortItems.2 hsub) hname.not_denied
          dsimp only at hclean ⊢
          generalize scanEntries env lim path (sortItems entries) s [] = r at *
          have hturns : ∀ a ∈ r.2.reverse, ∀ s, Adds (Found env lim (left + 1) a.1 a.2) s
              (scanDir env lim left a s) := by
            intro a ha s'
            obtain ⟨m, hm, -⟩ := hdirs.entry a (List.mem_reverse.1 ha)
            exact scanDir_adds lim left (hdirs.names hpath (List.mem_reverse.1 ha)) (hw _ hm) s'
          have hrest := foldl_adds hturns (hdirs.pairwise_ne (left + 1)) r.1
          obtain ⟨hclean', hclean''⟩ := hclean.split hentries hrest
          cases rest with
          | nil =>
            obtain rfl := fileAt_nil hbelow
            exact hrest.subset ((hfound hclean').1 size mtime rfl hallowed hsize)
          | cons n rest =>
            obtain ⟨listable', entries', -, rfl, -, -⟩ := fileAt_cons hbelow
            have hmem := (hfound hclean').2 _ _ rfl
            obtain ⟨s', hs', hsubset⟩ := foldl_clean hturns (hdirs.pairwise_ne (left + 1)) hclean''
              (List.mem_reverse.2 hmem)
            apply hsubset
            have := ih (hdirs.names hpath hmem) (hw _ hsub) hs' hbelow (List.cons_ne_nil _ _)
              (by simpa using hdepth) (by simpa using hallowed)
            simpa using this

/-! ## The folder -/

variable (env lim) in
theorem scan_adds (folder : Folder) :
    Adds (Found env lim (depthMax + 1) [] folder.item) ⟨0, false, .none, []⟩
      (scan env lim folder) :=
  scanDir_adds lim depthMax (by simp) folder.wellFormed _

variable {folder : Folder} {c : Cand}

theorem mem_candidates : c ∈ candidates env lim folder ↔ c ∈ (scan env lim folder).cands :=
  List.mem_insertionSort _

/-- A candidate is a file of the folder. -/
theorem of_mem_candidates (h : c ∈ candidates env lim folder) :
    Allowed env c.path ∧ c.size ≤ lim.maxFile ∧ c.path.length ≤ depthMax + 1 ∧
      fileAt c.path folder.item = some (c.size, c.mtime) := by
  obtain ⟨-, -, cs, hcs, -, hfound⟩ := scan_adds env lim folder
  rw [mem_candidates, hcs, List.nil_append] at h
  obtain ⟨ha, hs, rest, -, hlen, hp, hfile⟩ := hfound c h
  rw [List.nil_append] at hp
  exact ⟨ha, hs, hp ▸ hlen, hp ▸ hfile⟩

/-- No two candidates have one relative path. -/
theorem nodup_rels (env : Env C) (lim : Limits) (folder : Folder) :
    ((candidates env lim folder).map Cand.rel).Nodup := by
  have hpaths : ((candidates env lim folder).map Cand.path).Nodup := by
    obtain ⟨-, -, cs, hcs, hn, -⟩ := scan_adds env lim folder
    rw [List.nil_append] at hcs
    apply ((List.perm_insertionSort _ _).map _).nodup_iff.2
    rw [hcs]
    exact hn
  rw [List.nodup_map_iff_inj_on (hpaths.of_map _)]
  intro a ha b hb hab
  have ha' := (of_mem_candidates ha).1
  have hb' := (of_mem_candidates hb).1
  have hpath : a.path = b.path := relText_injective ha'.ne_nil hb'.ne_nil
    (fun n hn => (ha'.names n hn).entry) (fun n hn => (hb'.names n hn).entry) hab
  exact List.inj_on_of_nodup_map hpaths ha hb hpath

/-- A scan that was not cut off and could ask everything has found every file to stage. -/
theorem mem_scan_of_complete (ht : (scan env lim folder).truncated = false)
    (hu : (scan env lim folder).skipped.unreadable = 0) {path : List PyStr} {size : ℕ} {mtime : ℤ}
    (hfile : fileAt path folder.item = some (size, mtime)) (hdepth : path.length ≤ depthMax + 1)
    (ha : Allowed env path) (hsize : size ≤ lim.maxFile) :
    ⟨path, size, mtime⟩ ∈ candidates env lim folder := by
  rw [mem_candidates]
  exact mem_scanDir_of_clean (by simp) folder.wellFormed ⟨ht, hu⟩ hfile ha.ne_nil hdepth ha hsize

end RagLeap.Staging
