import RagLeap.Foundations.Words
import RagLeap.Voice.Manifest

/-!
# The licence gate

The meaning of an SPDX expression is its alternatives, each a list of licences that have to be
allowed together. `check_licence` splits the text of an expression at its operators; what it accepts
can be satisfied by licences of the allowlist (`checkLicence_sound`). `validate_entries` looks for a
licence that requires attribution in the text as a whole, and so sees it only where it stands alone
(`licence_gate_iff`).
-/

namespace RagLeap.Voice

open Toml (Table)

/-! ## Expressions -/

/-- The alternatives of an expression: `AND` binds tighter than `OR`. -/
def alternatives : List Str → Option (List (List Str))
  | [] => none
  | [n] => if n = AND ∨ n = OR then none else some [[n]]
  | n :: op :: rest =>
    if n = AND ∨ n = OR then none
    else if op = AND then (alternatives rest).map (·.modifyHead (n :: ·))
    else if op = OR then (alternatives rest).map ([n] :: ·)
    else none

/-- The meaning of names joined by `AND` and `OR`; none for any other text. -/
def meaning (expr : Str) : Option (List (List Str)) := alternatives (Str.words expr)

/-- Licences satisfy an expression if they hold all those of an alternative. -/
def Satisfied (alts : List (List Str)) (licences : Str → Prop) : Prop :=
  ∃ g ∈ alts, ∀ n ∈ g, licences n

/-- Allowed licences satisfy the expression only if one of them requires attribution. -/
def NeedsAttribution (expr : Str) : Prop :=
  ∃ alts, meaning expr = some alts ∧
    ¬ Satisfied alts fun n => n ∈ ALLOWED ∧ n ∉ ATTRIBUTION_REQUIRED

example : meaning "MIT OR ISC AND GPL-3.0-only".toList =
    some [["MIT".toList], ["ISC".toList, "GPL-3.0-only".toList]] := by decide

/-! ## Words -/

theorem words_eq (s : Str) : Str.words s = wordsOf Str.isSpace s := rfl

theorem mem_takeWhile_space {s : Str} {c : Char} (h : c ∈ s.takeWhile Str.isSpace) :
    Str.isSpace c = true :=
  List.all_eq_true.1 List.all_takeWhile c h

/-- White space at the ends of a text is in none of its words. -/
theorem words_strip (s : Str) : Str.words (Str.strip s) = Str.words s := by
  have hfront : s = s.takeWhile Str.isSpace ++ s.dropWhile Str.isSpace :=
    List.takeWhile_append_dropWhile.symm
  have hback : (s.dropWhile Str.isSpace) =
      Str.strip s ++ ((s.dropWhile Str.isSpace).reverse.takeWhile Str.isSpace).reverse := by
    rw [Str.strip, ← List.reverse_append, List.takeWhile_append_dropWhile, List.reverse_reverse]
  rw [words_eq s]
  conv_rhs => rw [hfront, wordsOf_leading fun c hc => mem_takeWhile_space hc, hback]
  refine (wordsOf_suffix (fun c hc => ?_) _).symm
  exact mem_takeWhile_space (List.mem_reverse.1 hc)

/-- The words of parts joined by a spaced operator. -/
theorem words_joinSep {op : Str} (hop : Str.words op = [op]) {parts : List Str} :
    Str.words (joinSep (spaced op) parts) = joinSep [op] (parts.map Str.words) := by
  have hspace : Str.isSpace ' ' = true := rfl
  induction parts with
  | nil => rfl
  | cons p parts ih =>
    cases parts with
    | nil => rfl
    | cons q parts =>
      have hsplit : joinSep (spaced op) (p :: q :: parts) =
          p ++ ' ' :: (op ++ ' ' :: joinSep (spaced op) (q :: parts)) := by
        simp [joinSep, spaced]
      rw [hsplit, words_eq, wordsOf_append_cons hspace, wordsOf_append_cons hspace, ← words_eq,
        ← words_eq, ← words_eq, ih, hop]
      simp [joinSep]

/-! ## Soundness -/

theorem allowed_word : ∀ n ∈ ALLOWED, Str.words n = [n] ∧ n ≠ AND ∧ n ≠ OR := by
  decide

/-- A part that is an allowed licence once stripped is its one word. -/
theorem words_of_strip_allowed {p : Str} (h : Str.strip p ∈ ALLOWED) :
    Str.words p = [Str.strip p] := by
  rw [← words_strip, (allowed_word _ h).1]

theorem alternatives_single {n : Str} (h : n ∈ ALLOWED) : alternatives [n] = some [[n]] := by
  obtain ⟨-, hand, hor⟩ := allowed_word n h
  rw [alternatives, if_neg (by simp [hand, hor])]

/-- Allowed licences joined by `AND` are one alternative. -/
theorem alternatives_and {ns : List Str} (hne : ns ≠ []) (h : ∀ n ∈ ns, n ∈ ALLOWED) :
    alternatives (joinSep [AND] (ns.map fun n => [n])) = some [ns] := by
  induction ns with
  | nil => exact absurd rfl hne
  | cons n ns ih =>
    have hn := h n List.mem_cons_self
    cases ns with
    | nil => exact alternatives_single hn
    | cons m ns =>
      obtain ⟨-, hand, hor⟩ := allowed_word n hn
      have hrest := ih (List.cons_ne_nil m ns) fun k hk => h k (List.mem_cons_of_mem n hk)
      rw [List.map_cons, joinSep_cons (by simp), List.append_assoc, List.singleton_append,
        List.singleton_append, alternatives, if_neg (by simp [hand, hor]), if_pos rfl, hrest]
      rfl

/-- An `OR` stands between alternatives. -/
theorem alternatives_or {ws rest : List Str} {alts : List (List Str)}
    (h : alternatives (ws ++ OR :: rest) = some alts) :
    ∃ a b, alternatives ws = some a ∧ alternatives rest = some b ∧ alts = a ++ b ∧ a ≠ [] := by
  have hor : OR ≠ AND := by decide
  fun_induction alternatives ws generalizing alts with
  | case1 =>
    exfalso
    cases rest <;> simp [alternatives] at h
  | case2 n hn =>
    simp [alternatives, hn] at h
  | case3 n hn =>
    simp only [List.singleton_append, alternatives, if_neg hn, if_neg hor, if_true,
      Option.map_eq_some_iff] at h
    obtain ⟨b, hb, rfl⟩ := h
    exact ⟨[[n]], b, rfl, hb, rfl, by simp⟩
  | case4 n op ws hn =>
    simp [alternatives, hn] at h
  | case5 n ws hn ih =>
    simp only [List.cons_append, alternatives, if_neg hn, if_true, Option.map_eq_some_iff] at h
    obtain ⟨c, hc, rfl⟩ := h
    obtain ⟨a, b, ha, hb, rfl, hne⟩ := ih hc
    refine ⟨a.modifyHead (n :: ·), b, by rw [ha]; rfl, hb, ?_, ?_⟩
    · obtain ⟨g, a, rfl⟩ := List.exists_cons_of_ne_nil hne
      rfl
    · simpa using hne
  | case6 n ws hn hop ih =>
    simp only [List.cons_append, alternatives, if_neg hn, if_neg hop, if_true,
      Option.map_eq_some_iff] at h
    obtain ⟨c, hc, rfl⟩ := h
    obtain ⟨a, b, ha, hb, rfl, hne⟩ := ih hc
    exact ⟨[n] :: a, b, by rw [ha]; rfl, hb, rfl, by simp⟩
  | case7 n op ws hn hop hop' =>
    simp [alternatives, hn, hop, hop'] at h

/-- A part between two `OR` that is one licence is an alternative. -/
theorem mem_alternatives {parts : List (List Str)} {n : Str} (hn : n ∈ ALLOWED)
    (hmem : [n] ∈ parts) {alts : List (List Str)}
    (h : alternatives (joinSep [OR] parts) = some alts) : [n] ∈ alts := by
  induction parts generalizing alts with
  | nil => exact nomatch hmem
  | cons p parts ih =>
    cases parts with
    | nil =>
      obtain rfl := List.mem_singleton.1 hmem
      rw [joinSep, alternatives_single hn] at h
      obtain rfl := Option.some.inj h
      exact List.mem_singleton_self _
    | cons q parts =>
      rw [joinSep_cons (List.cons_ne_nil q parts), List.append_assoc, List.singleton_append] at h
      obtain ⟨a, b, ha, hb, rfl, -⟩ := alternatives_or h
      rcases List.mem_cons.1 hmem with rfl | hmem
      · rw [alternatives_single hn] at ha
        obtain rfl := Option.some.inj ha
        exact List.mem_append_left b (List.mem_singleton_self _)
      · exact List.mem_append_right a (ih hmem hb)

/-- How an expression is accepted: by all of its parts at `AND`, by one of its parts at `OR`, or as
a licence. -/
theorem checkLicence_cases {expr : Str} (hok : (checkLicence expr).1 = true) :
    (∀ p ∈ split (spaced AND) (Str.strip expr), Str.strip p ∈ ALLOWED) ∨
      (∃ p ∈ split (spaced OR) (Str.strip expr), Str.strip p ∈ ALLOWED) ∨
      Str.strip expr ∈ ALLOWED := by
  unfold checkLicence at hok
  dsimp only at hok
  split at hok
  · cases hok
  split at hok
  · cases hok
  split at hok
  · left
    simpa [List.filter_eq_nil_iff] using hok
  split at hok
  · right; left
    simpa using hok
  · right; right
    simpa using hok

/-- **An accepted expression** can be satisfied by allowed licences alone. -/
theorem checkLicence_sound {expr : Str} {alts : List (List Str)}
    (hmeaning : meaning expr = some alts) (hok : (checkLicence expr).1 = true) :
    Satisfied alts (· ∈ ALLOWED) := by
  rw [meaning, ← words_strip] at hmeaning
  have hjoin : ∀ op, Str.words op = [op] → Str.words (Str.strip expr) =
      joinSep [op] ((split (spaced op) (Str.strip expr)).map Str.words) := by
    intro op hop
    have hsep : spaced op ≠ [] := List.cons_ne_nil _ _
    conv_lhs => rw [← joinSep_split hsep (Str.strip expr)]
    exact words_joinSep hop
  rcases checkLicence_cases hok with hparts | ⟨p, hp, hname⟩ | hname
  · have hwords : (split (spaced AND) (Str.strip expr)).map Str.words =
        ((split (spaced AND) (Str.strip expr)).map Str.strip).map fun n => [n] := by
      rw [List.map_map]
      exact List.map_congr_left fun p hp => words_of_strip_allowed (hparts p hp)
    have hnames : ∀ n ∈ (split (spaced AND) (Str.strip expr)).map Str.strip, n ∈ ALLOWED := by
      simpa using hparts
    have hne : (split (spaced AND) (Str.strip expr)).map Str.strip ≠ [] := by
      simpa using split_ne_nil (spaced AND) (Str.strip expr)
    rw [hjoin AND (by decide), hwords, alternatives_and hne hnames] at hmeaning
    obtain rfl := Option.some.inj hmeaning
    exact ⟨_, List.mem_singleton_self _, hnames⟩
  · rw [hjoin OR (by decide)] at hmeaning
    have hword : [Str.strip p] ∈ (split (spaced OR) (Str.strip expr)).map Str.words :=
      List.mem_map.2 ⟨p, hp, words_of_strip_allowed hname⟩
    exact ⟨_, mem_alternatives hname hword hmeaning, by simpa using hname⟩
  · rw [(allowed_word _ hname).1, alternatives_single hname] at hmeaning
    obtain rfl := Option.some.inj hmeaning
    exact ⟨_, List.mem_singleton_self _, by simpa using hname⟩

/-! ## Attribution -/

/-- The licence fields of an entry. -/
def ModelEntry.licences (e : ModelEntry) : List (Str × Str) :=
  [("code_license".toList, e.codeLicense), ("weights_license".toList, e.weightsLicense)]

/-- A verified or default entry. -/
def ModelEntry.Held (e : ModelEntry) : Prop := e.default = true ∨ e.status = "verified".toList

/-- A field of a held entry whose expression is accepted, but only with a licence that requires
attribution, while the notices do not name the entry. -/
def Unattributed (notices : Str) (e : ModelEntry) (key : Str) : Prop :=
  e.Held ∧ ¬ e.name <:+: notices ∧ ∃ expr, (key, expr) ∈ e.licences ∧
    (checkLicence expr).1 = true ∧ NeedsAttribution expr

/-- Every such field is reported. -/
def Reported (notices : Str) (entries : List ModelEntry) (problems : List Problem) : Prop :=
  ∀ e ∈ entries, ∀ key, Unattributed notices e key →
    Problem.entry e.name (.attribution key) ∈ problems

/-- Every such field, or the same field of a held entry of the same name, is a licence that requires
attribution and nothing else. -/
def Bare (notices : Str) (entries : List ModelEntry) : Prop :=
  ∀ e ∈ entries, ∀ key, Unattributed notices e key →
    ∃ e' ∈ entries, e'.name = e.name ∧ e'.Held ∧
      ∃ expr ∈ ATTRIBUTION_REQUIRED, (key, expr) ∈ e'.licences

/-- The attribution problems of a field. -/
theorem attribution_mem_licenceIssues {notices label label' key key' expr : Str} :
    Problem.entry label (.attribution key) ∈ licenceIssues notices label' key' expr ↔
      label = label' ∧ key = key' ∧ (checkLicence expr).1 = true ∧ expr ∈ ATTRIBUTION_REQUIRED ∧
        ¬ label' <:+: notices := by
  unfold licenceIssues
  split_ifs with hbad hneeds
  · simp only [Bool.not_eq_true'] at hbad
    simp [hbad]
  · simp only [Bool.not_eq_true', Bool.not_eq_false] at hbad
    simp [hbad, hneeds]
  · simp only [Bool.not_eq_true', Bool.not_eq_false] at hbad
    simp only [List.not_mem_nil, false_iff]
    rintro ⟨-, -, -, hmem⟩
    exact hneeds hmem

theorem attribution_notMem_shapeProblems {names : List Str} {label label' key : Str} {raw : Table} :
    Problem.entry label (.attribution key) ∉ shapeProblems names label' raw := by
  unfold shapeProblems
  split_ifs <;> simp

variable (print : Printer)

theorem attribution_notMem_pinProblems {label label' key : Str} {raw : Table} :
    Problem.entry label (.attribution key) ∉ pinProblems print label' raw := by
  unfold pinProblems
  split_ifs <;> simp

theorem attribution_notMem_dependencyProblems {label key : Str} {raws : List Table} {i : ℕ}
    {raw : Table} :
    Problem.entry label (.attribution key) ∉ dependencyProblems print raws i raw := by
  unfold dependencyProblems
  dsimp only
  split
  · simp
  · simp only [List.mem_append, not_or]
    refine ⟨⟨?_, ?_⟩, ?_⟩
    · split_ifs <;> simp
    · intro hmem
      obtain ⟨d, -, hd⟩ := List.mem_filterMap.1 hmem
      split_ifs at hd <;> simp at hd
    · split_ifs <;> simp

/-- The attribution problems of an entry. -/
theorem attribution_mem_entryProblems {raw : Table} {e : ModelEntry} (hreads : Reads raw e)
    {notices : Str} {names : List Str} {i : ℕ} {here : List Problem}
    (h : entryProblems print notices names i raw = some here) {label key : Str} :
    Problem.entry label (.attribution key) ∈ here ↔
      label = e.name ∧ e.Held ∧ ¬ e.name <:+: notices ∧
        ∃ expr ∈ ATTRIBUTION_REQUIRED, (key, expr) ∈ e.licences := by
  have haccepted : ∀ expr ∈ ATTRIBUTION_REQUIRED, (checkLicence expr).1 = true := by
    decide
  rw [hreads.entryProblems] at h
  obtain rfl := Option.some.inj h
  rw [List.mem_append, or_iff_right attribution_notMem_shapeProblems]
  have hheld : (e.default || decide (e.status = "verified".toList)) = true ↔ e.Held := by
    rw [Bool.or_eq_true, decide_eq_true_eq]
    rfl
  split_ifs with hif
  · rw [List.mem_append, or_iff_right (attribution_notMem_pinProblems print), List.mem_append,
      attribution_mem_licenceIssues, attribution_mem_licenceIssues]
    simp only [ModelEntry.licences, List.mem_cons, List.not_mem_nil, or_false, Prod.mk.injEq]
    constructor
    · rintro (⟨rfl, rfl, -, hmem, hnamed⟩ | ⟨rfl, rfl, -, hmem, hnamed⟩)
      · exact ⟨rfl, hheld.1 hif, hnamed, _, hmem, .inl ⟨rfl, rfl⟩⟩
      · exact ⟨rfl, hheld.1 hif, hnamed, _, hmem, .inr ⟨rfl, rfl⟩⟩
    · rintro ⟨rfl, -, hnamed, expr, hmem, ⟨rfl, rfl⟩ | ⟨rfl, rfl⟩⟩
      · exact .inl ⟨rfl, rfl, haccepted _ hmem, hmem, hnamed⟩
      · exact .inr ⟨rfl, rfl, haccepted _ hmem, hmem, hnamed⟩
  · simp only [List.not_mem_nil, false_iff]
    rintro ⟨-, h, -⟩
    exact hif (hheld.2 h)

/-- The attribution problems of a manifest. -/
theorem attribution_mem_validateEntries {pairs : List (Table × ModelEntry)}
    (hreads : ∀ q ∈ pairs, Reads q.1 q.2) (notices : Str) :
    ∃ problems, validateEntries print (pairs.map Prod.fst) notices = some problems ∧
      ∀ label key, Problem.entry label (.attribution key) ∈ problems ↔
        ∃ q ∈ pairs, label = q.2.name ∧ q.2.Held ∧ ¬ q.2.name <:+: notices ∧
          ∃ expr ∈ ATTRIBUTION_REQUIRED, (key, expr) ∈ q.2.licences := by
  obtain ⟨found, w, hproblems, hmem, -⟩ := validateEntries_reads print hreads notices
  refine ⟨_, hproblems, fun label key => ?_⟩
  have hsecond : Problem.entry label (.attribution key) ∉
      (pairs.map Prod.fst).zipIdx.flatMap fun p =>
        dependencyProblems print (pairs.map Prod.fst) p.2 p.1 := by
    intro hin
    obtain ⟨⟨raw, i⟩, -, hin⟩ := List.mem_flatMap.1 hin
    exact attribution_notMem_dependencyProblems print hin
  have hcycles : Problem.entry label (.attribution key) ∉ w.cycles.map .cycle := by
    simp
  rw [List.mem_append, or_iff_left hcycles, List.mem_append]
  refine (or_iff_left hsecond).trans ((hmem _).trans ?_)
  constructor
  · rintro ⟨a, q, b, rfl, here, hhere, hin⟩
    have hq : q ∈ a ++ q :: b := List.mem_append_right a List.mem_cons_self
    exact ⟨q, hq, (attribution_mem_entryProblems print (hreads q hq) hhere).1 hin⟩
  · rintro ⟨q, hq, hfield⟩
    obtain ⟨a, b, rfl⟩ := List.append_of_mem hq
    have hhere := (hreads q hq).entryProblems print notices
      (a.map fun q => q.2.name).reverse a.length
    exact ⟨a, q, b, rfl, _, hhere,
      (attribution_mem_entryProblems print (hreads q hq) hhere).2 hfield⟩

/-- **The licence gate**: what `check_licence` accepts can be satisfied by allowed licences alone,
and `validate_entries` reports the entries of a manifest that lack an attribution exactly where the
licence that requires it is all of the expression. -/
theorem licence_gate_iff :
    (∀ expr alts, meaning expr = some alts → (checkLicence expr).1 = true →
      Satisfied alts (· ∈ ALLOWED)) ∧
    ∀ (raws : List Table) (entries : List ModelEntry) (notices : Str),
      entriesOf print raws = .ok entries →
      ∃ problems, validateEntries print raws notices = some problems ∧
        (Reported notices entries problems ↔ Bare notices entries) := by
  refine ⟨fun expr alts => checkLicence_sound, fun raws entries notices h => ?_⟩
  obtain ⟨pairs, rfl, rfl, hreads⟩ := entriesOf_reads print h
  obtain ⟨problems, hproblems, hmem⟩ := attribution_mem_validateEntries print hreads notices
  refine ⟨problems, hproblems, ?_, ?_⟩
  · intro hreported e he key hfield
    obtain ⟨q, hq, hname, hheld, -, expr, hexpr⟩ :=
      (hmem e.name key).1 (hreported e he key hfield)
    exact ⟨q.2, List.mem_map_of_mem hq, hname.symm, hheld, expr, hexpr⟩
  · intro hbare e he key hfield
    obtain ⟨e', he', hname, hheld, hexpr⟩ := hbare e he key hfield
    obtain ⟨q, hq, rfl⟩ := List.mem_map.1 he'
    have hnamed : ¬ q.2.name <:+: notices := by
      rw [hname]
      exact hfield.2.1
    exact (hmem e.name key).2 ⟨q, hq, hname.symm, hheld, hnamed, hexpr⟩

namespace Sample

/-- A licence that requires attribution, and another. -/
def mixed : Str := "CC-BY-4.0 AND MIT".toList

theorem needsAttribution_mixed : NeedsAttribution mixed := by
  refine ⟨[["CC-BY-4.0".toList, "MIT".toList]], by decide, ?_⟩
  rintro ⟨g, hg, hall⟩
  obtain rfl := List.mem_singleton.1 hg
  exact (hall _ List.mem_cons_self).2 (List.mem_singleton_self _)

theorem mixed_unreported :
    entriesOf plain [table ['m'] mixed []] = .ok [entry ['m'] mixed []] ∧
      validateEntries plain [table ['m'] mixed []] [] = some [] ∧
      Unattributed [] (entry ['m'] mixed []) "weights_license".toList ∧
      ¬ Reported [] [entry ['m'] mixed []] [] := by
  have hfield : Unattributed [] (entry ['m'] mixed []) "weights_license".toList := by
    refine ⟨.inr rfl, by decide, mixed, ?_, by decide, needsAttribution_mixed⟩
    exact List.mem_cons_of_mem _ (List.mem_singleton_self _)
  refine ⟨rfl, by decide, hfield, fun hreported => ?_⟩
  exact nomatch hreported _ (List.mem_singleton_self _) _ hfield

theorem licence_gate_iff_bare :
    (meaning "ISC OR GPL-3.0-only".toList = some [["ISC".toList], ["GPL-3.0-only".toList]] ∧
      Satisfied [["ISC".toList], ["GPL-3.0-only".toList]] (· ∈ ALLOWED)) ∧
    ∃ problems, validateEntries plain [table ['m'] "CC-BY-4.0".toList []] [] = some problems ∧
      (Reported [] [entry ['m'] "CC-BY-4.0".toList []] problems ↔
        Bare [] [entry ['m'] "CC-BY-4.0".toList []]) :=
  ⟨⟨by decide, (licence_gate_iff plain).1 "ISC OR GPL-3.0-only".toList _ (by decide) (by decide)⟩,
    (licence_gate_iff plain).2 [table ['m'] "CC-BY-4.0".toList []]
      [entry ['m'] "CC-BY-4.0".toList []] [] rfl⟩

end Sample

end RagLeap.Voice
