import RagLeap.Foundations.PyString

/-!
# String literals

Two forms of a literal after its opening quotation mark. In `doubled` a mark inside is written twice;
in `quoted` a backslash begins an escape. A text with its marks doubled is always read back
(`doubled_double`); a text written as it is between the marks is read back exactly if it is `Plain`
(`quoted_eq_iff`).
-/

namespace RagLeap

namespace StringLiteral

variable (q : CodePoint)

/-! ## Doubled marks -/

/-- `s.replace(q, q + q)`. -/
def double (s : PyStr) : PyStr := s.flatMap fun c => if c = q then [q, q] else [c]

/-- The literal and what follows it. -/
def doubled : PyStr → Option (PyStr × PyStr)
  | [] => none
  | [c] => if c = q then some ([], []) else none
  | c :: d :: s =>
    if c = q then
      if d = q then (doubled s).map fun (t, rest) => (q :: t, rest) else some ([], d :: s)
    else (doubled (d :: s)).map fun (t, rest) => (c :: t, rest)

variable {q}

theorem doubled_close {rest : PyStr} (hrest : rest.head? ≠ some q) :
    doubled q (q :: rest) = some ([], rest) := by
  cases rest with
  | nil => rw [doubled, if_pos rfl]
  | cons d rest =>
    have hd : d ≠ q := fun h => hrest (h ▸ rfl)
    rw [doubled, if_pos rfl, if_neg hd]

theorem doubled_cons {c : CodePoint} (hc : c ≠ q) (s : PyStr) :
    doubled q (c :: s) = (doubled q s).map fun (t, rest) => (c :: t, rest) := by
  cases s with
  | nil => exact if_neg hc
  | cons d s => rw [doubled, if_neg hc]

theorem doubled_pair (s : PyStr) :
    doubled q (q :: q :: s) = (doubled q s).map fun (t, rest) => (q :: t, rest) := by
  rw [doubled, if_pos rfl, if_pos rfl]

/-- A text with doubled marks is read back. -/
theorem doubled_double (s : PyStr) {rest : PyStr} (hrest : rest.head? ≠ some q) :
    doubled q (double q s ++ q :: rest) = some (s, rest) := by
  induction s with
  | nil => exact doubled_close hrest
  | cons c s ih =>
    rw [double, List.flatMap_cons, List.append_assoc]
    by_cases hc : c = q
    · rw [if_pos hc, hc, List.cons_append, List.singleton_append, doubled_pair, ← double, ih]
      rfl
    · rw [if_neg hc, List.singleton_append, doubled_cons hc, ← double, ih]
      rfl

/-! ## Escapes -/

/-- What follows a backslash: the character it stands for and the text after it. A mark can only be
the whole of an escape, and stands for itself. -/
structure Escapes (q : CodePoint) where
  read : PyStr → Option (CodePoint × PyStr)
  spec : ∀ s d rest, read s = some (d, rest) →
    ∃ e, e ≠ [] ∧ s = e ++ rest ∧ (q ∈ e → e = [q] ∧ d = q)

variable (esc : Escapes q)

def isNewline (c : CodePoint) : Bool := c = ch '\n' || c = ch '\r'

/-- The literal, of at most `n` characters with the closing mark, and what follows it. -/
def quoted : ℕ → PyStr → Option (PyStr × PyStr)
  | n + 1, c :: s =>
    if c = q then some ([], s)
    else if isNewline c then none
    else if c = ch '\\' then
      (esc.read s).bind fun (d, s) => (quoted n s).map fun (t, rest) => (d :: t, rest)
    else (quoted n s).map fun (t, rest) => (c :: t, rest)
  | _, _ => none

variable (q) in
/-- A text that means itself between quotation marks. -/
def Plain (s : PyStr) : Prop := ∀ c ∈ s, c ≠ q ∧ isNewline c = false ∧ c ≠ ch '\\'

instance (s : PyStr) : Decidable (Plain q s) := inferInstanceAs (Decidable (∀ c ∈ s, _))

variable {esc}

theorem quoted_of_plain {s : PyStr} (hs : Plain q s) {n : ℕ} (hn : s.length < n) (rest : PyStr) :
    quoted esc n (s ++ q :: rest) = some (s, rest) := by
  induction s generalizing n with
  | nil =>
    obtain ⟨m, rfl⟩ : ∃ m, n = m + 1 := ⟨n - 1, by simp at hn; omega⟩
    rw [List.nil_append, quoted, if_pos rfl]
  | cons c s ih =>
    obtain ⟨⟨hquote, hnewline, hslash⟩, hs⟩ := List.forall_mem_cons.1 hs
    rw [List.length_cons] at hn
    obtain ⟨m, rfl⟩ : ∃ m, n = m + 1 := ⟨n - 1, by omega⟩
    rw [List.cons_append, quoted, if_neg hquote, if_neg (by simp [hnewline]), if_neg hslash,
      ih hs (by omega)]
    rfl

/-- Between its marks, a text with no mark is read as `y ++ s ++ z` only if it is plain and `y` and
`z` are empty: what an escape has made shorter is never made up for. -/
theorem plain_of_quoted {s : PyStr} (hq : q ≠ ch '\\') {n : ℕ} {y z rest t : PyStr}
    (hs : q ∉ s) (hy : q ∉ y) (h : quoted esc n (s ++ q :: rest) = some (y ++ s ++ z, t)) :
    y = [] ∧ z = [] ∧ Plain q s := by
  induction n generalizing s y t with
  | zero => cases h
  | succ n ih =>
    cases s with
    | nil =>
      rw [List.nil_append, quoted, if_pos rfl] at h
      have hnil := (congrArg Prod.fst (Option.some.inj h)).symm
      simp only [List.append_nil, List.append_eq_nil_iff] at hnil
      exact ⟨hnil.1, hnil.2, fun _ h => nomatch h⟩
    | cons c s =>
      obtain ⟨hc, hmark⟩ := not_or.1 (fun h => hs (List.mem_cons.2 h))
      rw [List.cons_append, quoted, if_neg (Ne.symm hc)] at h
      split at h
      · cases h
      · rename_i hnewline
        split at h
        · rename_i hslash
          subst hslash
          obtain ⟨⟨d, s₁⟩, hread, h⟩ := Option.bind_eq_some_iff.1 h
          obtain ⟨⟨u, t'⟩, hu, heq⟩ := Option.map_eq_some_iff.1 h
          obtain ⟨e, hne, hsplit, halone⟩ := esc.spec _ _ _ hread
          have hcons : d :: u = y ++ ch '\\' :: s ++ z := congrArg Prod.fst heq
          -- An escape within `s` leaves the rest of `s` to be read as a longer text.
          have hinside : ∀ s', s = e ++ s' → s₁ ≠ s' ++ q :: rest := by
            rintro s' rfl rfl
            have hlong : d :: u = y ++ ch '\\' :: e ++ s' ++ z := by simpa using hcons
            obtain ⟨y', hy'⟩ : ∃ y', y ++ ch '\\' :: e = d :: y' := by
              cases y with
              | nil => exact ⟨e, congrArg (· :: e) (List.cons.inj hcons).1.symm⟩
              | cons a y =>
                exact ⟨y ++ ch '\\' :: e, congrArg (· :: _) (List.cons.inj hcons).1.symm⟩
            have hmem : q ∉ y' := by
              intro hmem
              have hin : q ∈ y ++ ch '\\' :: e := hy' ▸ List.mem_cons_of_mem d hmem
              rcases List.mem_append.1 hin with hin | hin
              · exact hy hin
              · rcases List.mem_cons.1 hin with hin | hin
                · exact hq hin
                · exact hmark (List.mem_append_left s' hin)
            rw [hy'] at hlong
            have hnil := (ih (fun hin => hmark (List.mem_append_right e hin)) hmem
              (hu.trans (congrArg (fun w : PyStr => some (w, t')) (List.cons.inj hlong).2))).1
            have hlen := congrArg List.length hy'
            have hpos := List.length_pos_of_ne_nil hne
            rw [hnil, List.length_append, List.length_cons] at hlen
            simp only [List.length_cons, List.length_nil] at hlen
            omega
          exfalso
          rcases List.append_eq_append_iff.1 hsplit with ⟨e', rfl, hrest⟩ | ⟨s', hs', hrest⟩
          · cases e' with
            | nil =>
              rw [List.append_nil] at hinside
              exact hinside [] (List.append_nil s).symm hrest.symm
            | cons a e' =>
              obtain ⟨rfl, -⟩ := List.cons.inj hrest
              obtain ⟨hwhole, rfl⟩ := halone (List.mem_append_right s List.mem_cons_self)
              -- The closing mark itself is escaped, so the text read begins with a mark.
              cases y with
              | nil => exact hq (List.cons.inj hcons).1
              | cons a y => exact hy ((List.cons.inj hcons).1 ▸ List.mem_cons_self)
          · exact hinside s' hs' hrest
        · rename_i hslash
          obtain ⟨⟨u, t'⟩, hu, heq⟩ := Option.map_eq_some_iff.1 h
          have hcons : c :: u = y ++ [c] ++ s ++ z := by
            rw [List.append_assoc y]
            exact congrArg Prod.fst heq
          obtain ⟨y', hy'⟩ : ∃ y', y ++ [c] = c :: y' := by
            cases y with
            | nil => exact ⟨[], rfl⟩
            | cons a y => exact ⟨y ++ [c], congrArg (· :: _) (List.cons.inj hcons).1.symm⟩
          have hmem : q ∉ y' := by
            intro hmem
            rcases List.mem_append.1 (hy' ▸ List.mem_cons_of_mem c hmem) with hin | hin
            · exact hy hin
            · exact hc (List.mem_singleton.1 hin)
          rw [hy'] at hcons
          obtain ⟨hnil, hz, hplain⟩ := ih hmark hmem
            (hu.trans (congrArg (fun w : PyStr => some (w, t')) (List.cons.inj hcons).2))
          rw [hnil] at hy'
          have hlen := congrArg List.length hy'
          rw [List.length_append] at hlen
          refine ⟨List.length_eq_zero_iff.1 (Nat.add_right_cancel hlen), hz, ?_⟩
          exact List.forall_mem_cons.2 ⟨⟨Ne.symm hc, by simpa using hnewline, hslash⟩, hplain⟩

/-- A text written between quotation marks is read back exactly if it is plain. -/
theorem quoted_eq_iff (hq : q ≠ ch '\\') {s rest : PyStr} {n : ℕ} (hn : s.length < n) :
    (∃ t, quoted esc n (s ++ q :: rest) = some (s, t)) ↔ Plain q s := by
  constructor
  · rintro ⟨t, h⟩
    by_cases hmem : q ∈ s
    · obtain ⟨a, b, rfl, ha⟩ := List.eq_append_cons_of_mem hmem
      have h' : quoted esc n (a ++ q :: (b ++ q :: rest)) = some ([] ++ a ++ q :: b, t) := by
        simpa using h
      exact absurd (plain_of_quoted hq ha List.not_mem_nil h').2.1 (List.cons_ne_nil q b)
    · have h' : quoted esc n (s ++ q :: rest) = some ([] ++ s ++ [], t) := by simpa using h
      exact (plain_of_quoted hq hmem List.not_mem_nil h').2.2
  · exact fun hs => ⟨rest, quoted_of_plain hs hn rest⟩

end StringLiteral

end RagLeap
