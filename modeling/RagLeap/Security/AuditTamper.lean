import RagLeap.Security.AuditAppend

/-!
# Tampering with a log

With a hash that tells texts apart, the last hash of a log fixes its records: a record's digest
fixes its canonical text, its text the hash of the record before it, and so on to the first. What
the canonical text does not tell apart is a character beyond U+FFFF and the two surrogates that
stand for it, so the records are those of the log exactly if they hold no such pair
(`same_records_iff`). Without an anchor the sequence numbers alone keep whole lines in their places
(`prefix_of_subset`).
-/

namespace RagLeap.Security

open JsonText

variable {F : Type} {env : AuditEnv F}

/-! ## Dictionaries up to order -/

/-- Members sort alike if they are the same up to order and have each name once. -/
theorem sortMembers_eq_of_perm {ms ms' : List (PyStr × Value F)} (h : ms.Perm ms')
    (hn : (ms.map Prod.fst).Nodup) : Value.sortMembers ms = Value.sortMembers ms' := by
  have hms := List.pairwise_map.1 (Value.increasing_sortMembers hn)
  have hms' := List.pairwise_map.1 (Value.increasing_sortMembers ((h.map Prod.fst).nodup_iff.1 hn))
  have hperm : (Value.sortMembers ms).Perm (Value.sortMembers ms') :=
    ((List.perm_insertionSort _ ms).trans h).trans (List.perm_insertionSort _ ms').symm
  exact hperm.eq_of_pairwise (fun _ _ _ _ hlt hlt' => absurd (hlt.trans hlt') (lt_irrefl _)) hms hms'

/-- The members of an object with their values sorted. -/
def sortValues (ms : List (PyStr × Value F)) : List (PyStr × Value F) :=
  ms.map fun m => (m.1, m.2.sorted)

theorem sorted_obj (ms : List (PyStr × Value F)) :
    (Value.obj ms).sorted = .obj (Value.sortMembers (sortValues ms)) := by
  rw [Value.sorted, Value.map_obj]
  rfl

theorem keys_sortValues (ms : List (PyStr × Value F)) :
    (sortValues ms).map Prod.fst = ms.map Prod.fst := by
  rw [sortValues, List.map_map]
  rfl

/-- The members of objects that sort alike are the same up to order. -/
theorem perm_of_sorted_eq {ms ms' : List (PyStr × Value F)}
    (h : (Value.obj ms).sorted = (Value.obj ms').sorted) :
    (sortValues ms).Perm (sortValues ms') := by
  rw [sorted_obj, sorted_obj] at h
  have hsort := Value.obj.inj h
  exact ((List.perm_insertionSort _ _).symm.trans (List.Perm.of_eq hsort)).trans
    (List.perm_insertionSort _ _)

theorem lookup_sortValues (ms : List (PyStr × Value F)) (k : PyStr) :
    (sortValues ms).lookup k = (ms.lookup k).map Value.sorted := by
  induction ms with
  | nil => rfl
  | cons m ms ih =>
    rw [sortValues, List.map_cons, List.lookup_cons, List.lookup_cons]
    cases k == m.1 with
    | true => rfl
    | false => exact ih

theorem lookup_eq_of_perm {ms ms' : List (PyStr × Value F)} (h : ms.Perm ms')
    (hn : (ms.map Prod.fst).Nodup) (k : PyStr) : ms.lookup k = ms'.lookup k := by
  apply Option.ext
  intro v
  rw [lookup_eq_some_iff_mem hn, lookup_eq_some_iff_mem ((h.map Prod.fst).nodup_iff.1 hn), h.mem_iff]

/-! ## Two records with one hash -/

theorem nodup_of_loads {raw : List UInt8} {rec : List (PyStr × Value F)}
    (h : loads env raw = some (.obj rec)) : (rec.map Prod.fst).Nodup := by
  obtain ⟨s, -, hs⟩ := Option.bind_eq_some_iff.1 h
  obtain ⟨t, -, ht⟩ := Option.map_eq_some_iff.1 hs
  have hdistinct := Value.distinct_collapse t
  rw [ht] at hdistinct
  exact (Value.all_obj.1 hdistinct).1

/-- A record is its hash and its body. -/
theorem perm_cons_body {rec : List (PyStr × Value F)} {v : Value F}
    (hn : (rec.map Prod.fst).Nodup) (hv : rec.lookup Name.hash.text = some v) :
    rec.Perm ((Name.hash.text, v) :: body rec) := by
  induction rec with
  | nil => exact nomatch hv
  | cons m rec ih =>
    rw [List.map_cons, List.nodup_cons] at hn
    rw [List.lookup_cons] at hv
    by_cases hm : m.1 = Name.hash.text
    · have hbody : body rec = rec := by
        apply List.filter_eq_self.2
        intro e he
        have hne : e.1 ≠ m.1 := fun h => hn.1 (h ▸ List.mem_map_of_mem he)
        simpa [hm] using hne
      rw [beq_iff_eq.2 hm.symm] at hv
      obtain rfl := Option.some.inj hv
      rw [body, List.filter_cons, if_neg (by simpa using hm)]
      rw [body] at hbody
      rw [hbody, ← hm]
    · rw [beq_false_of_ne (Ne.symm hm)] at hv
      rw [body, List.filter_cons, if_pos (by simpa using hm)]
      exact ((ih hn.2 hv).cons m).trans (List.Perm.swap _ _ _)

theorem eq_of_seqIs {v : Option (Value F)} {n m : ℕ} (hn : seqIs env v n = true)
    (hm : seqIs env v m = true) : n = m := by
  unfold seqIs at hn hm
  split at hn
  · simp only [decide_eq_true_eq] at hn hm
    omega
  · simp only [decide_eq_true_eq] at hn hm
    rw [hn] at hm
    exact_mod_cast Option.some.inj hm
  · exact absurd hn Bool.false_ne_true

/-- What says nothing of the parts of a value says the same of it once sorted. -/
theorem map_sorted_eq {β : Type} {f : Option (Value F) → β}
    (harr : ∀ items items', f (some (.arr items)) = f (some (.arr items')))
    (hobj : ∀ members members', f (some (.obj members)) = f (some (.obj members')))
    (v : Option (Value F)) : f (v.map Value.sorted) = f v := by
  cases v with
  | none => rfl
  | some v =>
    rw [Option.map_some, Value.sorted]
    cases v with
    | atom a => rw [Value.map_atom]
    | str s => rw [Value.map_str, id]
    | arr items => rw [Value.map_arr, harr]
    | obj members => rw [Value.map_obj, hobj]

theorem seqIs_map_sorted (v : Option (Value F)) (n : ℕ) :
    seqIs env (v.map Value.sorted) n = seqIs env v n :=
  map_sorted_eq (f := fun v => seqIs env v n) (fun _ _ => rfl) (fun _ _ => rfl) v

theorem asStr?_map_sorted (v : Option (Value F)) : asStr? (v.map Value.sorted) = asStr? v :=
  map_sorted_eq (fun _ _ => rfl) (fun _ _ => rfl) v

theorem joined_body {rec : List (PyStr × Value F)} (h : (Value.obj rec).Joined) :
    (Value.obj (body rec)).Joined := by
  obtain ⟨-, hnames, hvalues⟩ := Value.all_obj.1 h
  exact .obj trivial (fun m hm => hnames m (List.mem_of_mem_filter hm))
    fun m hm => hvalues m (List.mem_of_mem_filter hm)

/-- **A hash fixes the record it belongs to**, the place and the hash before it, as long as no
surrogate pair stands in either record. -/
theorem eq_of_isRecord (hsha : Function.Injective env.sha256) {prev prev' hash : PyStr} {m m' : ℕ}
    {raw raw' : List UInt8} {rec rec' : List (PyStr × Value F)}
    (h : IsRecord env prev m raw rec hash) (h' : IsRecord env prev' m' raw' rec' hash)
    (hjoined : (Value.obj rec).Joined) (hjoined' : (Value.obj rec').Joined) :
    (Value.obj rec).sorted = (Value.obj rec').sorted ∧ prev = prev' ∧ m = m' := by
  have hcontent := h.content
  have hcontent' := h'.content
  rw [digest_ofValue] at hcontent hcontent'
  -- one digest, so one canonical text of the bodies
  have htext := (digest_eq_iff hsha).1 (Option.some.inj (hcontent.trans hcontent'.symm))
  have hjoin := join_eq_of_print_eq env.toFloats (print_eq_of_encoded_eq env htext)
  rw [Value.join_eq_self (Value.joined_sorted (joined_body hjoined)),
    Value.join_eq_self (Value.joined_sorted (joined_body hjoined'))] at hjoin
  have hbody := perm_of_sorted_eq hjoin
  have hn := nodup_of_loads h.read
  have hn' := nodup_of_loads h'.read
  have hrec : (sortValues rec).Perm
      ((Name.hash.text, (Value.str hash).sorted) :: sortValues (body rec)) :=
    (perm_cons_body hn (exists_lookup_of_asStr? h.own)).map _
  have hrec' : (sortValues rec').Perm
      ((Name.hash.text, (Value.str hash).sorted) :: sortValues (body rec')) :=
    (perm_cons_body hn' (exists_lookup_of_asStr? h'.own)).map _
  have hperm : (sortValues rec).Perm (sortValues rec') :=
    hrec.trans ((hbody.cons _).trans hrec'.symm)
  have hkeys : ((sortValues rec).map Prod.fst).Nodup := by
    rw [keys_sortValues]
    exact hn
  have hlookup : ∀ k, (rec.lookup k).map Value.sorted = (rec'.lookup k).map Value.sorted := by
    intro k
    rw [← lookup_sortValues, ← lookup_sortValues]
    exact lookup_eq_of_perm hperm hkeys k
  refine ⟨?_, ?_, ?_⟩
  · rw [sorted_obj, sorted_obj, sortMembers_eq_of_perm hperm hkeys]
  · have hlink := h.link
    rw [← asStr?_map_sorted, hlookup, asStr?_map_sorted, h'.link] at hlink
    exact (Option.some.inj hlink).symm
  · have hseq := h.seq
    rw [← seqIs_map_sorted, hlookup, seqIs_map_sorted] at hseq
    exact Nat.succ.inj (eq_of_seqIs hseq h'.seq)

/-! ## The chain from the anchor backwards -/

/-- No record of these lines holds a surrogate pair. -/
def AllJoined (env : AuditEnv F) (ls : List (List UInt8)) : Prop :=
  ∀ v ∈ ls.filterMap (loads env), v.Joined

theorem AllJoined.of_append {ls rest : List (List UInt8)} (h : AllJoined env (ls ++ rest)) :
    AllJoined env ls ∧ AllJoined env rest := by
  unfold AllJoined at h
  rw [List.filterMap_append] at h
  exact ⟨fun v hv => h v (List.mem_append_left _ hv), fun v hv => h v (List.mem_append_right _ hv)⟩

theorem filterMap_concat {ls : List (List UInt8)} {raw : List UInt8} {v : Value F}
    (h : loads env raw = some v) :
    (ls ++ [raw]).filterMap (loads env) = ls.filterMap (loads env) ++ [v] := by
  rw [List.filterMap_append, List.filterMap_cons, h]
  rfl

/-- Chains that end in one hash hold the same records. -/
theorem records_eq_of_run (hsha : Function.Injective env.sha256) {ls ls' : List (List UInt8)}
    {hash : PyStr} {n n' : ℕ} (h : run env genesis 0 ls = some (hash, n))
    (h' : run env genesis 0 ls' = some (hash, n')) (hempty : ls = [] ↔ ls' = [])
    (hjoined : AllJoined env ls) (hjoined' : AllJoined env ls') :
    (ls.filterMap (loads env)).map Value.sorted = (ls'.filterMap (loads env)).map Value.sorted := by
  induction ls using List.reverseRecOn generalizing ls' hash n n' with
  | nil => rw [hempty.1 rfl]
  | append_singleton ls raw ih =>
    rcases List.eq_nil_or_concat ls' with rfl | ⟨ls', raw', rfl⟩
    · exact absurd (hempty.2 rfl) (by simp)
    · rw [List.concat_eq_append] at h' hjoined' ⊢
      obtain ⟨prev, m, rec, hls, -, hrec⟩ := run_concat_iff.1 h
      obtain ⟨prev', m', rec', hls', -, hrec'⟩ := run_concat_iff.1 h'
      obtain ⟨hjls, hjraw⟩ := hjoined.of_append
      obtain ⟨hjls', hjraw'⟩ := hjoined'.of_append
      have hv : (Value.obj rec).Joined := hjraw _ (by simp [hrec.read])
      have hv' : (Value.obj rec').Joined := hjraw' _ (by simp [hrec'.read])
      obtain ⟨hsame, rfl, rfl⟩ := eq_of_isRecord hsha hrec hrec' hv hv'
      have hlength : ls.length = ls'.length := by
        have := run_length hls
        have := run_length hls'
        omega
      have hprefix := ih hls hls'
        (by rw [← List.length_eq_zero_iff, hlength, List.length_eq_zero_iff]) hjls hjls'
      rw [filterMap_concat hrec.read, filterMap_concat hrec'.read, List.map_append,
        List.map_append, hprefix, List.map_singleton, List.map_singleton, hsame]

/-! ## Logs made by appends -/

variable (env)

/-- The files that appends make of an empty one, with writes that may fail anywhere. -/
inductive Produced : List UInt8 → Prop
  | nil : Produced []
  | append {file : List UInt8} (h : Produced file) (call : Call F) (fate : Option ℕ) :
      Produced (append env file call fate).2

variable {env}

/-- A write happens at the end of a line only. -/
theorem complete_of_last {file : List UInt8} {r : Value F × PyStr}
    (h : last env file = .ok r) : Complete file := by
  unfold last at h
  by_cases hnil : file = []
  · rw [hnil]
    exact fun _ h => nomatch h
  · rw [if_neg hnil] at h
    simp only at h
    split_ifs at h with htail
    · intro b hb
      have hlength : 0 < file.length := List.length_pos_iff.2 hnil
      rw [List.getLast?_drop, if_neg (by unfold maxRecordBytes; omega)] at htail
      rw [not_not.1 htail] at hb
      exact (Option.some.inj hb).symm

/-- What an append does to the file: nothing, or it adds a part of a line at the end of one. -/
theorem append_cases (env : AuditEnv F) (file : List UInt8) (call : Call F) (fate : Option ℕ) :
    (append env file call fate).2 = file ∨
      Complete file ∧ ∃ (v : Value F) (k : ℕ),
        (append env file call fate).2 = file ++ (encoded env v ++ [newline]).take k := by
  unfold append
  cases checkCall call with
  | error e => exact .inl rfl
  | ok r =>
    simp only
    cases hlast : last env file with
    | error e => exact .inl rfl
    | ok place =>
      simp only
      cases hline : lineOf env place call with
      | error e => exact .inl rfl
      | ok line =>
        obtain ⟨f, -, -, rfl, hload⟩ := loads_line hline
        refine .inr ⟨complete_of_last hlast, .obj (f.withHash (hashOf env f)), ?_⟩
        cases fate with
        | some k => exact ⟨k, rfl⟩
        | none =>
          refine ⟨(encoded env (.obj (f.withHash (hashOf env f))) ++ [newline]).length, ?_⟩
          simp only
          rw [hload, List.take_length]

/-- Nothing follows the last line of a file that stops at the end of one. -/
theorem eq_nil_of_complete {pre rest : List UInt8} (h : Complete (pre ++ rest))
    (hrest : newline ∉ rest) : rest = [] := by
  rcases List.eq_nil_or_concat rest with hnil | ⟨rest', b, hconcat⟩
  · exact hnil
  · rw [List.concat_eq_append] at hconcat
    have hb : b = newline := by
      apply h b
      rw [hconcat, ← List.append_assoc, List.getLast?_concat]
      rfl
    rw [hconcat, hb] at hrest
    exact absurd (List.mem_append_right _ List.mem_cons_self) hrest

/-- A file appends made holds written lines, and then at most a part of one. -/
theorem Produced.lines {file : List UInt8} (h : Produced env file) :
    ∃ (vs : List (Value F)) (rest : List UInt8),
      file = (vs.map fun v => encoded env v ++ [newline]).flatten ++ rest ∧ newline ∉ rest := by
  induction h with
  | nil => exact ⟨[], [], rfl, List.not_mem_nil⟩
  | @append file _ call fate ih =>
    obtain ⟨vs, rest, hfile, hrest⟩ := ih
    rcases append_cases env file call fate with hsame | ⟨hcomplete, v, k, hwrite⟩
    · rw [hsame]
      exact ⟨vs, rest, hfile, hrest⟩
    · have hnil : rest = [] := eq_nil_of_complete (hfile ▸ hcomplete) hrest
      rw [hwrite, hfile, hnil, List.append_nil]
      by_cases hk : k ≤ (encoded env v).length
      · refine ⟨vs, (encoded env v).take k, ?_, fun hmem => ?_⟩
        · rw [List.take_append_of_le_length hk]
        · exact newline_not_mem_encoded env v (List.mem_of_mem_take hmem)
      · refine ⟨vs ++ [v], [], ?_, List.not_mem_nil⟩
        rw [List.take_of_length_le (by simp only [List.length_append, List.length_singleton]; omega),
          List.map_append, List.flatten_append, List.append_nil]
        simp

theorem lines_flatten (vs : List (Value F)) :
    Security.lines (vs.map fun v => encoded env v ++ [newline]).flatten =
      vs.map fun v => encoded env v ++ [newline] := by
  induction vs with
  | nil => rfl
  | cons v vs ih =>
    have hcomplete : Complete (encoded env v ++ [newline]) := by
      intro b hb
      rw [List.getLast?_concat] at hb
      exact (Option.some.inj hb).symm
    rw [List.map_cons, List.flatten_cons, lines_append hcomplete, ih,
      lines_line (newline_not_mem_encoded env v)]
    rfl

/-- The records of a log that appends made hold no surrogate pairs: the text has them joined. -/
theorem Produced.allJoined {file : List UInt8} (h : Produced env file) (hcomplete : Complete file) :
    AllJoined env (Security.lines file) := by
  obtain ⟨vs, rest, hfile, hrest⟩ := h.lines
  have hnil : rest = [] := eq_nil_of_complete (hfile ▸ hcomplete) hrest
  rw [hfile, hnil, List.append_nil, lines_flatten]
  intro v hv
  obtain ⟨raw, hraw, hload⟩ := List.mem_filterMap.1 hv
  obtain ⟨u, -, rfl⟩ := List.mem_map.1 hraw
  rw [loads_encoded_newline] at hload
  rw [← Option.some.inj hload]
  exact Value.joined_collapse (Value.joined_join u)

/-! ## Tampering -/

/-- The records of two files are the same in the same order, dictionaries up to order. -/
def SameRecords (env : AuditEnv F) (file file' : List UInt8) : Prop :=
  (records env file).map Value.sorted = (records env file').map Value.sorted

theorem joined_of_sorted (v : Value F) (h : v.sorted.Joined) : v.Joined := by
  induction v using Value.ind with
  | atom a => exact .atom a
  | str s =>
    rw [Value.sorted, Value.map_str] at h
    exact h
  | arr items ih =>
    rw [Value.sorted, Value.map_arr, Value.Joined, Value.all_arr] at h
    exact .arr fun v hv => ih v hv (h _ (List.mem_map_of_mem hv))
  | obj members ih =>
    rw [sorted_obj, Value.Joined, Value.all_obj] at h
    have hmem : ∀ m ∈ members, (m.1, m.2.sorted) ∈ Value.sortMembers (sortValues members) :=
      fun m hm => Value.mem_sortMembers.2 (List.mem_map.2 ⟨m, hm, rfl⟩)
    refine .obj trivial (fun m hm => ?_) fun m hm => ih m hm (h.2.2 _ (hmem m hm))
    exact h.2.1 (m.1, m.2.sorted) (hmem m hm)

theorem length_records {file : List UInt8} {n : ℕ} {hash : PyStr}
    (h : Accepts env file n hash) : (records env file).length = (lines file).length := by
  have hrun := accepts_iff.1 h
  have hload : ∀ (ls : List (List UInt8)) (hash : PyStr) (n : ℕ),
      run env genesis 0 ls = some (hash, n) →
        (ls.filterMap (loads env)).length = ls.length := by
    intro ls
    induction ls using List.reverseRecOn with
    | nil => exact fun _ _ _ => rfl
    | append_singleton ls raw ih =>
      intro hash n hrun
      obtain ⟨prev, m, rec, hls, -, hrec⟩ := run_concat_iff.1 hrun
      rw [filterMap_concat hrec.read, List.length_append, List.length_append, ih prev m hls]
      rfl
  exact hload _ _ _ hrun

theorem eq_nil_of_sameRecords {file file' : List UInt8} {n n' : ℕ} {hash hash' : PyStr}
    (h : Accepts env file n hash) (h' : Accepts env file' n' hash')
    (hsame : SameRecords env file file') : file = [] ↔ file' = [] := by
  have hlength := congrArg List.length hsame
  rw [List.length_map, List.length_map, length_records h, length_records h'] at hlength
  rw [← lines_eq_nil_iff, ← List.length_eq_zero_iff, hlength, List.length_eq_zero_iff,
    lines_eq_nil_iff]

/-- The line of each place of a chain is the record with that sequence number. -/
theorem exists_isRecord_of_getElem? {file : List UInt8} {n : ℕ} {hash : PyStr}
    (h : Accepts env file n hash) {i : ℕ} {raw : List UInt8} (hraw : (lines file)[i]? = some raw) :
    ∃ prev rec own, IsRecord env prev i raw rec own := by
  have hsplit : lines file = (lines file).take i ++ raw :: (lines file).drop (i + 1) := by
    obtain ⟨hi, rfl⟩ := List.getElem?_eq_some_iff.1 hraw
    rw [← List.drop_eq_getElem_cons hi, List.take_append_drop]
  have hrun := accepts_iff.1 h
  rw [hsplit, run_append, Option.bind_eq_some_iff] at hrun
  obtain ⟨⟨prev, m⟩, htake, hdrop⟩ := hrun
  have hm : m = i := by
    rw [run_length htake, List.length_take, Nat.zero_add]
    exact min_eq_left (List.getElem?_eq_some_iff.1 hraw).1.le
  rw [run] at hdrop
  split at hdrop
  · rename_i own hcheck
    obtain ⟨rec, hrec⟩ := checkLine_eq_record_iff.1 hcheck
    exact ⟨prev, rec, own, hm ▸ hrec⟩
  · cases hdrop

/-- Whole lines of a log that `verify` accepts in some order are a prefix of it. -/
theorem prefix_of_subset {file file' : List UInt8} {n n' : ℕ} {hash hash' : PyStr}
    (h : Accepts env file n hash) (h' : Accepts env file' n' hash')
    (hsubset : ∀ raw ∈ lines file', raw ∈ lines file) : lines file' <+: lines file := by
  have hplace : ∀ (i : ℕ) (raw : List UInt8), (lines file')[i]? = some raw →
      (lines file)[i]? = some raw := by
    intro i raw hraw
    obtain ⟨j, hj⟩ := List.mem_iff_getElem?.1 (hsubset raw (List.mem_of_getElem? hraw))
    obtain ⟨prev, rec, own, hrec⟩ := exists_isRecord_of_getElem? h' hraw
    obtain ⟨prev', rec', own', hrec'⟩ := exists_isRecord_of_getElem? h hj
    have hread := hrec.read
    rw [hrec'.read] at hread
    obtain rfl := Value.obj.inj (Option.some.inj hread)
    rw [Nat.succ.inj (eq_of_seqIs hrec.seq hrec'.seq)]
    exact hj
  rw [List.prefix_iff_getElem?]
  intro i hi
  exact hplace i _ (List.getElem?_eq_getElem hi)

/-- **Tamper evidence.** With the last hash as the anchor, a file that `verify` accepts holds the
records of the log exactly if it is not empty for a log that is none, and no surrogate pair stands
in its records; without an anchor, whole lines of the log that are accepted are a prefix of it. -/
theorem tampering_shows_iff (hsha : Function.Injective env.sha256) {file : List UInt8} {n : ℕ}
    {hash : PyStr} (hproduced : Produced env file) (h : Accepts env file n hash)
    (file' : List UInt8) (n' : ℕ) (hash' : PyStr) :
    (verify env file' none (some hash) = some ⟨true, n', hash', none, none⟩ →
      (SameRecords env file file' ↔
        (file = [] ↔ file' = []) ∧ ∀ v ∈ records env file', v.Joined)) ∧
    (verify env file' none none = some ⟨true, n', hash', none, none⟩ →
      (∀ raw ∈ lines file', raw ∈ lines file) → lines file' <+: lines file) := by
  constructor
  · intro hanchor
    obtain ⟨h', rfl⟩ := (verify_anchor_iff (ascii_of_accepts h)).1 hanchor
    have hjoined : AllJoined env (lines file) := hproduced.allJoined h.complete
    constructor
    · intro hsame
      refine ⟨eq_nil_of_sameRecords h h' hsame, fun v hv => ?_⟩
      have hmem : v.sorted ∈ (records env file').map Value.sorted := List.mem_map_of_mem hv
      rw [← hsame] at hmem
      obtain ⟨u, hu, hsorted⟩ := List.mem_map.1 hmem
      apply joined_of_sorted
      rw [← hsorted]
      exact Value.joined_sorted (hjoined u hu)
    · rintro ⟨hempty, hjoined'⟩
      rw [← lines_eq_nil_iff, ← lines_eq_nil_iff] at hempty
      exact records_eq_of_run hsha (accepts_iff.1 h) (accepts_iff.1 h') hempty hjoined hjoined'
  · exact fun h' hsubset => prefix_of_subset h h' hsubset

/-! ## A surrogate pair -/

/-- A table whose digests differ is a hash function that tells texts apart. -/
theorem tableHash_injective {table : List (List UInt8 × ℕ)}
    (h : (table.map fun e => digestBytes e.2).Nodup) : Function.Injective (tableHash table) := by
  have hlong : ∀ (n : ℕ) (b : List UInt8), digestBytes n ≠ List.replicate 33 0 ++ b := by
    intro n b heq
    have hlength := congrArg List.length heq
    simp only [digestBytes, List.length_map, List.length_range, List.length_append,
      List.length_replicate] at hlength
    omega
  have hmem : ∀ (b : List UInt8) (n : ℕ), table.lookup b = some n → (b, n) ∈ table := by
    intro b n hb
    obtain ⟨l, r, rfl, -⟩ := List.lookup_eq_some_iff.1 hb
    simp
  intro b b' heq
  unfold tableHash at heq
  cases hb : table.lookup b with
  | none =>
    rw [hb] at heq
    cases hb' : table.lookup b' with
    | none =>
      rw [hb'] at heq
      exact List.append_cancel_left heq
    | some n' =>
      rw [hb'] at heq
      exact absurd heq.symm (hlong n' b)
  | some n =>
    rw [hb] at heq
    cases hb' : table.lookup b' with
    | none =>
      rw [hb'] at heq
      exact absurd heq (hlong n b')
    | some n' =>
      rw [hb'] at heq
      have hsame := List.inj_on_of_nodup_map h (hmem b n hb) (hmem b' n' hb') heq
      exact congrArg Prod.fst hsame

namespace Sample

theorem sha256_injective : Function.Injective sha256 := tableHash_injective (by decide)

/-- `append("a", …)` of the one character U+1F600. -/
def smile : Call Empty := call [(.str (text "a".toList), .str [point 0x1F600])]

def log : List UInt8 := (append interpreter [] smile none).2

def anchor : PyStr :=
  hexdigest (digestBytes 0x9d8427781091794e08638f068018b3fadf009cd766b64435eb05a18acf682a6d)

/-- The line of the log with the bytes of the two surrogates in place of their escapes. -/
def tampered : List UInt8 :=
  PyStr.encodeAscii (text "\x7b\"data\":\x7b\"a\":\"".toList) ++
    [0xED, 0xA0, 0xBD, 0xED, 0xB8, 0x80] ++
      PyStr.encodeAscii (text "\"\x7d,\"event\":\"a\",\"hash\":\"".toList ++ anchor ++
        text "\",\"prev\":\"".toList ++ genesis ++
          text "\",\"scope\":null,\"seq\":1,\"ts\":\"".toList ++ text now.text ++
            text "\"\x7d".toList) ++ [newline]

theorem produced_log : Produced interpreter log := .append .nil smile none

theorem accepts_log : Accepts interpreter log 1 anchor := by
  unfold Accepts
  decide +kernel

/-- The string of the record's data. -/
def dataText : Value Empty → Option PyStr
  | .obj rec =>
    match rec.lookup Name.data.text with
    | some (.obj data) => asStr? (data.lookup (text "a".toList))
    | _ => none
  | _ => none

end Sample

theorem tampering_shows_sample : SameRecords Sample.interpreter Sample.log Sample.tampered ↔
    (Sample.log = [] ↔ Sample.tampered = []) ∧
      ∀ v ∈ records Sample.interpreter Sample.tampered, v.Joined :=
  (tampering_shows_iff Sample.sha256_injective Sample.produced_log Sample.accepts_log
    Sample.tampered 1 Sample.anchor).1 (by decide +kernel)

/-- With the bytes of two surrogates in place of a character, the log verifies against its anchor
and holds another record. -/
theorem surrogates_unseen :
    Function.Injective Sample.interpreter.sha256 ∧ Produced Sample.interpreter Sample.log ∧
      Accepts Sample.interpreter Sample.log 1 Sample.anchor ∧
        verify Sample.interpreter Sample.tampered none (some Sample.anchor) =
          some ⟨true, 1, Sample.anchor, none, none⟩ ∧
            ¬ SameRecords Sample.interpreter Sample.log Sample.tampered := by
  refine ⟨Sample.sha256_injective, Sample.produced_log, Sample.accepts_log, by decide +kernel, ?_⟩
  intro hsame
  have htext := congrArg (List.map Sample.dataText) hsame
  exact absurd htext (by decide +kernel)

end RagLeap.Security
