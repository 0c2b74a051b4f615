import RagLeap.Foundations.CrLf
import RagLeap.Rag.Mime

/-!
# The lines of a MIME message

Both loops of `EmlExtractor.java` go through the lines of a range of the text. On a range that the
text holds they do the same as a loop over the list of its lines (`eachLine_eq`): no index lies
outside, and the rounds do not run out. By an invariant of the loop, `parse` gives an entity for
every range (`exists_parse`).
-/

namespace RagLeap.Rag.Mime

open Scan CrLf

variable {text s : Text} {pos start stop : ℕ} {σ : Type}

/-! ## One line -/

theorem lineEnd_eq (h : Holds text pos s) :
    lineEnd text pos (pos + s.length) = some (pos + (lineOf cr lf s).length) := by
  have hpred : (fun c : Latin1 => decide (c ≠ cr ∧ c ≠ lf)) = fun c => !isBreak cr lf c := by
    funext c
    simp [isBreak]
  rw [lineEnd, h.skip_eq _ rfl, hpred]
  rfl

/-- At a line break, or at the end of the range. -/
theorem nextLine_eq (h : Holds text pos s) (hs : ∀ c ∈ s.head?, isBreak cr lf c = true) :
    nextLine text pos (pos + s.length) = some (pos + (breakOf cr lf s).length) := by
  cases s with
  | nil => rw [nextLine, if_pos (by simp)]; rfl
  | cons c s =>
    have hc : isBreak cr lf c = true := hs c rfl
    rw [nextLine, if_neg (by simp), h.charAt_eq, breakOf]
    cases s with
    | nil => simp [hc]
    | cons d s =>
      by_cases hcr : c = cr
      · by_cases hd : d = lf
        · simp [hcr, hd, h.tail.charAt_eq]
        · simp [hcr, hd, h.tail.charAt_eq, isBreak]
      · simp [hcr, hc]

theorem head?_drop_lineOf (s : Text) :
    ∀ c ∈ (s.drop (lineOf cr lf s).length).head?, isBreak cr lf c = true := by
  intro c hc
  rw [drop_lineOf] at hc
  have hnot := List.head?_dropWhile_not (fun c => !isBreak cr lf c) s
  rw [hc] at hnot
  simpa using hnot

/-! ## The loop -/

/-- The loop over a list of lines, the first of them at `pos`. -/
def runLines (body : ℕ → Line Latin1 → σ → Option (σ × Bool)) :
    ℕ → List (Line Latin1) → σ → Option σ
  | _, [], st => some st
  | pos, l :: ls, st => do
    let r ← body pos l st
    if r.2 then runLines body (pos + l.raw.length) ls r.1 else some r.1

theorem runLines_of_some {body : ℕ → Line Latin1 → σ → Option (σ × Bool)} {l : Line Latin1}
    {st st' : σ} (h : body pos l st = some (st', true)) (ls : List (Line Latin1)) :
    runLines body pos (l :: ls) st = runLines body (pos + l.raw.length) ls st' := by
  rw [runLines, h, Option.bind_eq_bind, Option.bind_some, if_pos rfl]

theorem runLines_of_stop {body : ℕ → Line Latin1 → σ → Option (σ × Bool)} {l : Line Latin1}
    {st st' : σ} (h : body pos l st = some (st', false)) (ls : List (Line Latin1)) :
    runLines body pos (l :: ls) st = some st' := by
  rw [runLines, h, Option.bind_eq_bind, Option.bind_some, if_neg (by simp)]

/-- **The loop over a range is the loop over its lines.** -/
theorem eachLine_eq {body : ℕ → ℕ → ℕ → σ → Option (σ × Bool)}
    {body' : ℕ → Line Latin1 → σ → Option (σ × Bool)}
    (hbody : ∀ pos l st, Holds text pos (Line.raw l) →
      body pos (pos + l.text.length) (pos + l.raw.length) st = body' pos l st)
    {fuel : ℕ} (hfuel : s.length ≤ fuel) (h : Holds text pos s) (st : σ) :
    eachLine text (pos + s.length) body fuel pos st = runLines body' pos (lines cr lf s) st := by
  induction fuel generalizing pos s st with
  | zero =>
    obtain rfl : s = [] := List.length_eq_zero_iff.1 (Nat.le_zero.1 hfuel)
    rw [eachLine, if_neg (by simp), lines_nil, runLines]
  | succ fuel ih =>
    by_cases hs : s = []
    · subst hs
      rw [eachLine, if_neg (by simp), lines_nil, runLines]
    · set l := firstLine cr lf s with hl
      set t := s.drop l.raw.length with ht
      have hsplit : l.raw ++ t = s := raw_firstLine_append s
      have hpos : 0 < s.length := List.length_pos_iff.2 hs
      have hraw : 0 < l.raw.length := List.length_pos_iff.2 (raw_firstLine_ne_nil cr lf hs)
      have hlen : s.length = l.raw.length + t.length := by rw [← hsplit, List.length_append]
      have hheld : Holds text pos (l.raw ++ t) := hsplit.symm ▸ h
      have heol : lineEnd text pos (pos + s.length) = some (pos + l.text.length) := lineEnd_eq h
      have hnext : nextLine text (pos + l.text.length) (pos + s.length) =
          some (pos + l.raw.length) := by
        set u := s.drop (lineOf cr lf s).length with hu
        have hsu : l.text ++ u = s := List.prefix_iff_eq_append.1 (List.takeWhile_prefix _)
        have hat : Holds text (pos + l.text.length) u := by
          rw [← hsu] at h
          exact h.right
        have hend : pos + s.length = pos + l.text.length + u.length := by
          rw [← hsu, List.length_append, Nat.add_assoc]
        rw [hend, nextLine_eq hat (head?_drop_lineOf s), Line.raw, List.length_append,
          Nat.add_assoc]
        rfl
      have hrest : pos + s.length = pos + l.raw.length + t.length := by omega
      rw [eachLine, if_pos (by omega), heol, Option.bind_eq_bind, Option.bind_some, hnext,
        Option.bind_some, hbody pos l st hheld.left, lines_of_ne_nil hs, runLines]
      refine bind_congr fun r => ?_
      split_ifs
      · rw [hrest, ih (by omega) hheld.right r.1]
      · rfl

/-- What an invariant of the loop says when it is done. -/
theorem exists_runLines {body : ℕ → Line Latin1 → σ → Option (σ × Bool)} (Inv : ℕ → σ → Prop)
    (hbody : ∀ pos l st, Inv pos st → pos + (Line.raw l).length ≤ stop →
      ∃ r, body pos l st = some r ∧ ∃ q, (r.2 = true → q = pos + l.raw.length) ∧ q ≤ stop ∧
        Inv q r.1)
    (ls : List (Line Latin1)) {st : σ} (hstop : pos + (ls.flatMap Line.raw).length ≤ stop)
    (h : Inv pos st) : ∃ st', runLines body pos ls st = some st' ∧ ∃ q ≤ stop, Inv q st' := by
  induction ls generalizing pos st with
  | nil => exact ⟨st, rfl, pos, by omega, h⟩
  | cons l ls ih =>
    rw [List.flatMap_cons, List.length_append] at hstop
    obtain ⟨r, hr, q, hq, hle, hinv⟩ := hbody pos l st h (by omega)
    rw [runLines, hr, Option.bind_eq_bind, Option.bind_some]
    split_ifs with hmore
    · rw [hq hmore] at hinv
      exact ih (by omega) hinv
    · exact ⟨r.1, rfl, q, hle, hinv⟩

/-! ## Headers -/

theorem lstrip_eq (s : Text) : lstrip s = some (s.dropWhile isBlank) := by
  have hlen := length_takeWhile_add isBlank s
  have hskip := (holds_self s).skip_eq isBlank (Nat.zero_add _).symm
  rw [lstrip, hskip, Option.bind_eq_bind, Option.bind_some]
  exact ((holds_self s).dropWhile isBlank).substring_eq (by omega)

theorem startOfHeader_eq (a b : Text) : startOfHeader (a ++ ch ':' :: b) a.length =
    some (if a.all isNameChar then some ⟨a, b.dropWhile isBlank⟩ else none) := by
  have hline := holds_self (a ++ ch ':' :: b)
  have hrest : Holds (a ++ ch ':' :: b) (a.length + 1) b := by
    have hright := hline.right.tail
    rwa [Nat.zero_add] at hright
  have hskip := hline.left.skip_eq isNameChar (Nat.zero_add _).symm
  have hvalid : validHeaderName (a ++ ch ':' :: b) a.length = some (a.all isNameChar) := by
    rw [validHeaderName, hskip, Option.map_some, Nat.zero_add]
    congr 1
    rw [Bool.eq_iff_iff, beq_iff_eq, List.all_eq_true]
    refine ⟨fun h => ?_, fun h => by rw [List.takeWhile_eq_self_iff.2 h]⟩
    exact List.takeWhile_eq_self_iff.1 ((List.takeWhile_prefix _).eq_of_length h)
  rw [startOfHeader, hvalid, Option.bind_eq_bind, Option.bind_some]
  split_ifs
  · rw [hline.left.substring_eq (Nat.zero_add _).symm, hrest.substring_eq (by simp; omega)]
    simp only [Option.bind_eq_bind, Option.bind_some, lstrip_eq]
  · rfl

theorem exists_headerLine (eol next : ℕ) (line : Text) (st : HeaderScan) :
    ∃ r, headerLine line eol next st = some r ∧
      (r.1.pos = next ∨ r.2 = false ∧ r.1.pos = st.pos) := by
  unfold headerLine
  split_ifs
  · exact ⟨_, rfl, .inl rfl⟩
  · exact ⟨_, rfl, .inl rfl⟩
  · exact ⟨_, rfl, .inl rfl⟩
  · cases hcolon : indexOf line (ch ':') with
    | none => exact ⟨_, rfl, .inr ⟨rfl, rfl⟩⟩
    | some colon =>
      obtain ⟨a, b, rfl, ha, rfl⟩ := exists_of_indexOf hcolon
      cases hlen : a.length with
      | zero => exact ⟨_, rfl, .inr ⟨rfl, rfl⟩⟩
      | succ n =>
        have heq := startOfHeader_eq a b
        rw [hlen] at heq
        simp only [heq, Option.bind_eq_bind, Option.bind_some]
        split
        · exact ⟨_, rfl, .inr ⟨rfl, rfl⟩⟩
        · exact ⟨_, rfl, .inl rfl⟩

/-- The body of the loop of `parse`, over lines. -/
def headerBody (pos : ℕ) (l : Line Latin1) (st : HeaderScan) : Option (HeaderScan × Bool) :=
  headerLine l.text (pos + l.text.length) (pos + l.raw.length) st

theorem readHeaders_eq (h : Holds text pos s) :
    readHeaders text pos (pos + s.length) =
      (runLines headerBody pos (lines cr lf s) ⟨pos, true, none, []⟩).map fun st =>
        ⟨st.closed, st.pos, pos + s.length, none⟩ := by
  have hbody : ∀ pos l st, Holds text pos (Line.raw l) →
      (substring text pos (pos + l.text.length) >>= fun line =>
        headerLine line (pos + l.text.length) (pos + l.raw.length) st) =
        headerBody pos l st := by
    intro pos l st hl
    rw [hl.left.substring_eq rfl]
    rfl
  rw [readHeaders, Nat.add_sub_cancel_left, eachLine_eq hbody (Nat.le_refl _) h,
    Option.map_eq_bind]
  rfl

theorem exists_readHeaders (hle : start ≤ stop) (hstop : stop ≤ text.length) :
    ∃ e, readHeaders text start stop = some e ∧ e.bodyStart ≤ stop ∧ e.bodyEnd = stop ∧
      e.parts = none := by
  obtain ⟨s, hs, rfl⟩ := exists_holds hle hstop
  -- The scan is at the line that comes next, or at the one where it stopped.
  have hstep : ∀ pos l st, HeaderScan.pos st = pos → pos + (Line.raw l).length ≤ start + s.length →
      ∃ r, headerBody pos l st = some r ∧ ∃ q, (r.2 = true → q = pos + l.raw.length) ∧
        q ≤ start + s.length ∧ r.1.pos = q := by
    intro pos l st hpos hl
    obtain ⟨r, hr, hnext | ⟨hfalse, hsame⟩⟩ :=
      exists_headerLine (pos + l.text.length) (pos + l.raw.length) l.text st
    · exact ⟨r, hr, r.1.pos, fun _ => hnext, by omega, rfl⟩
    · exact ⟨r, hr, r.1.pos, (fun hmore => nomatch hfalse.symm.trans hmore), by omega, rfl⟩
  have hlen : start + ((lines cr lf s).flatMap Line.raw).length ≤ start + s.length := by
    rw [flatMap_raw_lines]
  have hinit : (⟨start, true, none, []⟩ : HeaderScan).pos = start := rfl
  obtain ⟨st, hst, q, hq, rfl⟩ :=
    exists_runLines (fun q (st : HeaderScan) => st.pos = q) hstep _ hlen hinit
  exact ⟨_, by rw [readHeaders_eq hs, hst]; rfl, hq, rfl, rfl⟩

/-! ## The content type -/

theorem exists_beforeSemi (v : Text) : ∃ u, beforeSemi v = some u := by
  unfold beforeSemi
  cases hsemi : indexOf v (ch ';') with
  | none => exact ⟨v, rfl⟩
  | some semi =>
    obtain ⟨a, b, rfl, -, rfl⟩ := exists_of_indexOf hsemi
    exact ⟨a, (holds_self _).left.substring_eq (Nat.zero_add _).symm⟩

theorem exists_contentType (headers : List Header) : ∃ t, contentType headers = some t := by
  unfold contentType
  cases header headers (lit "content-type") with
  | none => exact ⟨_, rfl⟩
  | some v =>
    obtain ⟨u, hu⟩ := exists_beforeSemi v
    simp only [hu, Option.bind_eq_bind, Option.bind_some]
    split
    · exact ⟨_, rfl⟩
    · split_ifs
      · exact ⟨_, rfl⟩
      · exact ⟨_, rfl⟩

theorem exists_quoted {header : Text} {fuel i : ℕ} (hi : i ≤ header.length)
    (hfuel : header.length - i ≤ fuel) (q : Text) :
    ∃ r, quoted header fuel i q = some r ∧ i ≤ r.2 ∧ r.2 ≤ header.length := by
  induction fuel generalizing i q with
  | zero => exact ⟨_, by rw [quoted, if_neg (by omega)], Nat.le_refl _, hi⟩
  | succ fuel ih =>
    by_cases hlt : i < header.length
    · obtain ⟨c, hc⟩ := exists_charAt hlt
      rw [quoted, if_pos hlt, hc, Option.bind_eq_bind, Option.bind_some]
      split_ifs with hquote hback
      · exact ⟨_, rfl, Nat.le_refl _, hi⟩
      · obtain ⟨d, hd⟩ := exists_charAt hback.2
        obtain ⟨r, hr, hle, hend⟩ := ih (i := i + 2) (by omega) (by omega) (q ++ [d])
        exact ⟨r, by rw [hd, Option.bind_some, hr], by omega, hend⟩
      · obtain ⟨r, hr, hle, hend⟩ := ih (i := i + 1) (by omega) (by omega) (q ++ [c])
        exact ⟨r, hr, by omega, hend⟩
    · exact ⟨_, by rw [quoted, if_neg hlt], Nat.le_refl _, hi⟩

theorem charIs_of_lt {header : Text} {i : ℕ} {c : Latin1} (h : charAt header i = some c)
    (hi : i < header.length) (d : Latin1) (outside : Bool) :
    charIs header i d outside = some (c == d) := by
  rw [charIs, if_pos hi, h, Option.map_some]

theorem charIs_of_le {header : Text} {i : ℕ} (h : header.length ≤ i) (d : Latin1)
    (outside : Bool) : charIs header i d outside = some outside := by
  rw [charIs, if_neg (by omega)]

theorem exists_paramValue {header : Text} {i : ℕ} (hi : i ≤ header.length) :
    ∃ r, paramValue header i = some r ∧ i ≤ r.2 ∧ r.2 ≤ header.length := by
  obtain ⟨j, hj, hij, hjn, -⟩ := exists_skip isBlank hi (Nat.le_refl _)
  have hquoted : ∃ b, charIs header j (ch '"') false = some b ∧ (b = true → j < header.length) := by
    by_cases hlt : j < header.length
    · obtain ⟨c, hc⟩ := exists_charAt hlt
      exact ⟨_, charIs_of_lt hc hlt _ _, fun _ => hlt⟩
    · exact ⟨false, charIs_of_le (by omega) _ _, nofun⟩
  obtain ⟨b, hb, hlt⟩ := hquoted
  simp only [paramValue, hj, hb, Option.bind_eq_bind, Option.bind_some]
  cases b with
  | true =>
    obtain ⟨r, hr, hle, hend⟩ := exists_quoted (i := j + 1) (hlt rfl) (Nat.le_refl _) []
    set m := if r.2 < header.length then r.2 + 1 else r.2 with hm
    have hnext : r.2 ≤ m ∧ m ≤ header.length := by
      rw [hm]
      split_ifs <;> omega
    obtain ⟨k, hk, hmk, hkn, -⟩ := exists_skip (· ≠ ch ';') hnext.2 (Nat.le_refl _)
    refine ⟨(r.1, k), ?_, ?_, hkn⟩
    · simp only [if_true, hr, Option.bind_some, ← hm, hk]
    · exact hij.trans (by omega)
  | false =>
    obtain ⟨k, hk, hjk, hkn, -⟩ := exists_skip (· ≠ ch ';') hjn (Nat.le_refl _)
    obtain ⟨value, hvalue⟩ := exists_substring hjk hkn
    refine ⟨(strip value, k), ?_, hij.trans hjk, hkn⟩
    simp only [Bool.false_eq_true, if_false, hk, hvalue, Option.bind_some]

/-- Every round of the loop over the parameters takes something of the header. -/
theorem exists_paramItem {header : Text} {i : ℕ} (hi : i < header.length) :
    ∃ r, paramItem header i = some r ∧ i < r.2.2 ∧ r.2.2 ≤ header.length := by
  obtain ⟨j, hj, hij, hjn, hstart⟩ :=
    exists_skip (fun c => decide (isBlank c ∨ c = ch ';')) hi.le (Nat.le_refl _)
  obtain ⟨k, hk, hjk, hkn, hstop⟩ :=
    exists_skip (fun c => decide (c ≠ ch '=' ∧ c ≠ ch ';')) hjn (Nat.le_refl _)
  obtain ⟨name, hname⟩ := exists_substring hjk hkn
  simp only [paramItem, hj, hk, hname, Option.bind_eq_bind, Option.bind_some]
  by_cases hlt : k < header.length
  · obtain ⟨c, hc, hcstop⟩ := hstop hlt
    rw [charIs_of_lt hc hlt, Option.bind_some]
    split_ifs with hsemi
    · -- A `;` here is not where the round started: such a character is passed over.
      refine ⟨(strip name, none, k), rfl, Nat.lt_of_not_le fun hle => ?_, hkn⟩
      have hle : k ≤ i := hle
      obtain rfl : k = j := by omega
      obtain ⟨d, hd, hdstart⟩ := hstart hlt
      obtain rfl : c = d := Option.some.inj (hc.symm.trans hd)
      simp [beq_iff_eq.1 hsemi] at hdstart
    · obtain ⟨r, hr, hle, hend⟩ := exists_paramValue (i := k + 1) hlt
      refine ⟨(strip name, some r.1, r.2), ?_, Nat.lt_of_lt_of_le (by omega) hle, hend⟩
      simp only [hr, Option.bind_some]
  · rw [charIs_of_le (by omega), Option.bind_some, if_pos rfl]
    exact ⟨(strip name, none, k), rfl, Nat.lt_of_lt_of_le hi (Nat.le_of_not_lt hlt), hkn⟩

theorem exists_paramFrom {header : Text} {fuel i : ℕ} (name : Text) (hi : i ≤ header.length)
    (hfuel : header.length - i ≤ fuel) : ∃ r, paramFrom header name fuel i = some r := by
  induction fuel generalizing i with
  | zero => exact ⟨_, by rw [paramFrom, if_neg (by omega)]⟩
  | succ fuel ih =>
    by_cases hlt : i < header.length
    · obtain ⟨⟨pname, value, j⟩, hitem, hij, hj⟩ := exists_paramItem hlt
      rw [paramFrom, if_pos hlt, hitem]
      cases value with
      | none => exact ih hj (by simp only at hij; omega)
      | some value =>
        simp only [Option.bind_eq_bind, Option.bind_some]
        split_ifs
        · exact ⟨_, rfl⟩
        · exact ih hj (by simp only at hij; omega)
    · exact ⟨_, by rw [paramFrom, if_neg hlt]⟩

theorem exists_param (header : Option Text) (name : Text) : ∃ r, param header name = some r := by
  unfold param
  cases header with
  | none => exact ⟨_, rfl⟩
  | some h =>
    cases hsemi : indexOf h (ch ';') with
    | none => exact ⟨none, by simp only [hsemi]⟩
    | some i =>
      obtain ⟨a, b, rfl, -, rfl⟩ := exists_of_indexOf hsemi
      simp only [hsemi]
      exact exists_paramFrom name (by simp) (Nat.le_refl _)

theorem exists_splitAt (headers : List Header) : ∃ r, splitAt headers = some r := by
  obtain ⟨ctype, hctype⟩ := exists_contentType headers
  obtain ⟨b, hb⟩ := exists_param (header headers (lit "content-type")) (lit "boundary")
  simp only [splitAt, hctype, hb, Option.bind_eq_bind, Option.bind_some]
  split_ifs
  · exact ⟨_, rfl⟩
  · exact ⟨_, rfl⟩

/-! ## Splitting a body -/

/-- The kind of a line. -/
def kindOf (delim line : Text) : Kind :=
  if delim <+: line then
    let rest := line.drop delim.length
    if lit "--" <+: rest then if (rest.drop 2).all isBlank then .closing else .other
    else if rest.all isBlank then .opening else .other
  else .other

theorem kindOf_append (delim rest : Text) : kindOf delim (delim ++ rest) =
    if lit "--" <+: rest then if (rest.drop 2).all isBlank then .closing else .other
    else if rest.all isBlank then .opening else .other := by
  rw [kindOf, if_pos (List.prefix_append _ _)]
  simp only [List.drop_left]

theorem skip_ne_iff {p : Latin1 → Bool} {i j : ℕ} (h : Holds text i s) (hj : j = i + s.length) :
    ∃ k, skip p text i j = some k ∧ (k ≠ j ↔ s.all p = false) := by
  refine ⟨_, h.skip_eq p hj, ?_⟩
  have hle := (List.takeWhile_prefix p (l := s)).length_le
  rw [hj, ← Bool.not_eq_true, List.all_eq_true, ← List.takeWhile_eq_self_iff, not_iff_not]
  refine ⟨fun heq => (List.takeWhile_prefix p).eq_of_length (by omega), fun heq => by rw [heq]⟩

/-- `matchDelimiter` behind the delimiter, where it knows whether `--` follows. -/
theorem matchRest_eq {rest : Text} (close : Bool) (h : Holds text pos rest) {eol : ℕ}
    (heol : eol = pos + rest.length) :
    (skip isBlank text pos eol >>= fun q =>
      some (if q ≠ eol then Kind.other else if close then .closing else .opening)) =
      some (if rest.all isBlank then (if close then .closing else .opening) else .other) := by
  obtain ⟨q, hq, hne⟩ := skip_ne_iff (p := isBlank) h heol
  rw [hq, Option.bind_eq_bind, Option.bind_some]
  by_cases hall : rest.all isBlank = true
  · rw [if_pos hall, if_neg (fun h => by rw [hne.1 h] at hall; exact nomatch hall)]
  · rw [if_neg hall, if_pos (hne.2 (by simpa using hall))]

theorem matchDelimiter_eq {line : Text} (delim : Text) (h : Holds text pos line) :
    matchDelimiter text pos (pos + line.length) delim = some (kindOf delim line) := by
  by_cases hpre : delim <+: line
  · have hstart : startsWith text delim pos = true := by
      rw [h.startsWith_eq hpre.length_le, decide_eq_true hpre]
    obtain ⟨rest, rfl⟩ := hpre
    have hrest := h.right
    have heol : pos + (delim ++ rest).length = pos + delim.length + rest.length := by
      rw [List.length_append, Nat.add_assoc]
    have hclose : (decide (pos + delim.length + 2 ≤ pos + delim.length + rest.length) &&
        startsWith text (lit "--") (pos + delim.length)) = decide (lit "--" <+: rest) := by
      by_cases htwo : 2 ≤ rest.length
      · rw [hrest.startsWith_eq (w := lit "--") htwo, decide_eq_true (by omega), Bool.true_and]
      · rw [decide_eq_false (by omega), Bool.false_and, eq_comm, decide_eq_false_iff_not]
        exact fun hpre => htwo hpre.length_le
    rw [matchDelimiter, if_pos hstart, kindOf_append, heol]
    simp only [hclose]
    by_cases hdash : lit "--" <+: rest
    · rw [if_pos hdash, if_pos (decide_eq_true hdash)]
      obtain ⟨rest, rfl⟩ := hdash
      have hend : pos + delim.length + (lit "--" ++ rest).length =
          pos + delim.length + 2 + rest.length := by
        rw [List.length_append, Nat.add_assoc _ 2]
        rfl
      have hbehind : Holds text (pos + delim.length + 2) rest := hrest.right
      rw [decide_eq_true (List.prefix_append _ _), matchRest_eq true hbehind hend]
      rfl
    · rw [if_neg hdash, if_neg (by simpa using hdash), decide_eq_false hdash,
        matchRest_eq false hrest rfl]
      rfl
  · rw [kindOf, if_neg hpre, matchDelimiter]
    split_ifs with hstart
    · -- The delimiter goes on behind the end of the line.
      have hlen : line.length < delim.length := by
        by_contra hle
        rw [h.startsWith_eq (Nat.le_of_not_lt hle), decide_eq_true_eq] at hstart
        exact hpre hstart
      have hskip : skip isBlank text (pos + delim.length) (pos + line.length) =
          some (pos + delim.length) := by
        rw [skip, Nat.sub_eq_zero_of_le (by omega)]
        rfl
      have hclose : decide (pos + delim.length + 2 ≤ pos + line.length) = false :=
        decide_eq_false (by omega)
      simp only [hclose, Bool.false_and, Bool.false_eq_true, if_false, hskip]
      rw [Option.bind_eq_bind, Option.bind_some, if_pos (by omega)]
    · rfl

/-- The body of the loop of `splitParts`, over lines. -/
def splitBody (parse : ℕ → ℕ → Option Entity) (delim : Text) (pos : ℕ) (l : Line Latin1)
    (st : SplitScan) : Option (SplitScan × Bool) :=
  splitLine parse (kindOf delim l.text) pos (pos + l.text.length) (pos + l.raw.length) st

/-- What `splitParts` does when it has been through the lines. -/
def lastPart (text : Text) (parse : ℕ → ℕ → Option Entity) (stop : ℕ) (st : SplitScan) :
    Option (Option (List Entity)) := do
  if st.inPart then
    let last ← parse st.partStart stop
    let last ← trimLast text last
    some (if st.sawStart then some (st.parts ++ [last]) else none)
  else some (if st.sawStart then some st.parts else none)

theorem splitParts_eq {parse : ℕ → ℕ → Option Entity} {e : Entity} (boundary : Text)
    (h : Holds text e.bodyStart s) (hend : e.bodyEnd = e.bodyStart + s.length) :
    splitParts text parse e boundary =
      (runLines (splitBody parse (lit "--" ++ boundary)) e.bodyStart (lines cr lf s)
        ⟨false, false, 0, 0, []⟩ >>= fun st => lastPart text parse e.bodyEnd st) := by
  have hbody : ∀ pos l st, Holds text pos (Line.raw l) →
      (matchDelimiter text pos (pos + l.text.length) (lit "--" ++ boundary) >>= fun kind =>
        splitLine parse kind pos (pos + l.text.length) (pos + l.raw.length) st) =
        splitBody parse (lit "--" ++ boundary) pos l st := by
    intro pos l st hl
    rw [matchDelimiter_eq _ hl.left]
    rfl
  rw [splitParts, hend, Nat.add_sub_cancel_left, eachLine_eq hbody (Nat.le_refl _) h]
  rfl

theorem exists_closed {parse : ℕ → ℕ → Option Entity}
    (hparse : ∀ i j, i ≤ j → j ≤ text.length → ∃ e, parse i j = some e) {st : SplitScan}
    (hstart : st.partStart ≤ pos) (hpos : pos ≤ text.length) :
    ∃ parts, st.closed parse pos = some parts := by
  unfold SplitScan.closed
  split_ifs
  · obtain ⟨e, he⟩ := hparse st.partStart (max st.partStart (pos - st.prevEolLen)) (by omega)
      (by omega)
    exact ⟨_, by rw [he, Option.map_some]⟩
  · exact ⟨_, rfl⟩

theorem exists_splitBody {parse : ℕ → ℕ → Option Entity}
    (hparse : ∀ i j, i ≤ j → j ≤ text.length → ∃ e, parse i j = some e) (delim : Text)
    (l : Line Latin1) {st : SplitScan} (hstart : st.partStart ≤ pos) (hpos : pos ≤ text.length) :
    ∃ r, splitBody parse delim pos l st = some r ∧ r.1.partStart ≤ pos + l.raw.length := by
  obtain ⟨parts, hparts⟩ := exists_closed hparse hstart hpos
  unfold splitBody splitLine
  cases kindOf delim l.text with
  | other => exact ⟨_, rfl, Nat.le_add_right_of_le hstart⟩
  | opening => exact ⟨_, by rw [hparts]; rfl, Nat.le_refl _⟩
  | closing => exact ⟨_, by rw [hparts]; rfl, Nat.le_add_right_of_le hstart⟩

theorem exists_trimLast {e : Entity} (h : e.bodyEnd ≤ text.length) :
    ∃ r, trimLast text e = some r := by
  unfold trimLast
  split_ifs with hcond
  · have hlen : ∃ n, trailingEolLength text e.bodyStart e.bodyEnd = some n := by
      have hlast : e.bodyEnd - 1 < text.length := by omega
      have hbefore : e.bodyEnd - 2 < text.length := by omega
      obtain ⟨c, hc⟩ := exists_charAt hlast
      obtain ⟨d, hd⟩ := exists_charAt hbefore
      simp only [trailingEolLength, hc, hd, Option.bind_eq_bind, Option.bind_some]
      split_ifs
      all_goals exact ⟨_, rfl⟩
    obtain ⟨n, hn⟩ := hlen
    exact ⟨_, by rw [hn, Option.map_some]⟩
  · exact ⟨_, rfl⟩

theorem exists_splitParts {parse : ℕ → ℕ → Option Entity}
    (hparse : ∀ i j, i ≤ j → j ≤ text.length → ∃ e, parse i j = some e ∧ e.bodyEnd = j)
    {e : Entity} (hle : e.bodyStart ≤ e.bodyEnd) (hend : e.bodyEnd ≤ text.length)
    (boundary : Text) : ∃ parts, splitParts text parse e boundary = some parts := by
  have hsome : ∀ i j, i ≤ j → j ≤ text.length → ∃ e, parse i j = some e := fun i j hij hj =>
    (hparse i j hij hj).imp fun _ h => h.1
  obtain ⟨s, hs, hstop⟩ := exists_holds hle hend
  have hstep : ∀ pos l st, SplitScan.partStart st ≤ pos → pos + (Line.raw l).length ≤ e.bodyEnd →
      ∃ r, splitBody parse (lit "--" ++ boundary) pos l st = some r ∧
        ∃ q, (r.2 = true → q = pos + l.raw.length) ∧ q ≤ e.bodyEnd ∧ r.1.partStart ≤ q := by
    intro pos l st hpos hl
    obtain ⟨r, hr, hle⟩ := exists_splitBody hsome (lit "--" ++ boundary) l hpos (by omega)
    exact ⟨r, hr, pos + l.raw.length, fun _ => rfl, hl, hle⟩
  have hlen : e.bodyStart + ((lines cr lf s).flatMap Line.raw).length ≤ e.bodyEnd := by
    rw [flatMap_raw_lines, hstop]
  have hinit : (⟨false, false, 0, 0, []⟩ : SplitScan).partStart ≤ e.bodyStart := Nat.zero_le _
  obtain ⟨st, hst, q, hq, hstart⟩ :=
    exists_runLines (fun q (st : SplitScan) => st.partStart ≤ q) hstep _ hlen hinit
  rw [splitParts_eq boundary hs hstop, hst, Option.bind_eq_bind, Option.bind_some, lastPart]
  by_cases hin : st.inPart = true
  · obtain ⟨last, hlast, hbodyEnd⟩ := hparse st.partStart e.bodyEnd (hstart.trans hq) hend
    have hle' : last.bodyEnd ≤ text.length := hbodyEnd ▸ hend
    obtain ⟨last', hlast'⟩ := exists_trimLast hle'
    exact ⟨_, by rw [if_pos hin, hlast, Option.bind_eq_bind, Option.bind_some, hlast',
      Option.bind_some]⟩
  · exact ⟨_, by rw [if_neg hin]⟩

/-! ## Entities -/

theorem parse_of_none {levels : ℕ} {e : Entity} (he : readHeaders text start stop = some e)
    (hsplit : splitAt e.headers = some none) : parse text (levels + 1) start stop = some e := by
  rw [parse, he, Option.bind_eq_bind, Option.bind_some, hsplit]
  rfl

theorem parse_of_some {levels : ℕ} {e : Entity} {b : Text} {parts : Option (List Entity)}
    (he : readHeaders text start stop = some e) (hsplit : splitAt e.headers = some (some b))
    (hparts : splitParts text (parse text levels) e b = some parts) :
    parse text (levels + 1) start stop = some { e with parts := parts } := by
  rw [parse, he, Option.bind_eq_bind, Option.bind_some, hsplit]
  simp only [Option.bind_eq_bind, Option.bind_some, hparts, Option.map_some]

/-- An entity keeps the headers and the body that were read first; it has no parts unless the
headers say where to split. -/
theorem exists_parse (levels : ℕ) (hle : start ≤ stop) (hstop : stop ≤ text.length) :
    ∃ e e', readHeaders text start stop = some e ∧ parse text levels start stop = some e' ∧
      e'.headers = e.headers ∧ e'.bodyStart = e.bodyStart ∧ e'.bodyEnd = stop ∧
      (splitAt e.headers = some none → e'.parts = none) := by
  induction levels generalizing start stop with
  | zero =>
    obtain ⟨e, he, hbody, hend, hnone⟩ := exists_readHeaders hle hstop
    exact ⟨e, e, he, he, rfl, rfl, hend, fun _ => hnone⟩
  | succ levels ih =>
    obtain ⟨e, he, hbody, hend, hnone⟩ := exists_readHeaders hle hstop
    obtain ⟨b, hb⟩ := exists_splitAt e.headers
    have hparse : ∀ i j, i ≤ j → j ≤ text.length →
        ∃ e, parse text levels i j = some e ∧ e.bodyEnd = j := fun i j hij hj => by
      obtain ⟨-, e', -, he', -, -, hend', -⟩ := ih hij hj
      exact ⟨e', he', hend'⟩
    cases b with
    | none =>
      exact ⟨e, e, he, parse_of_none he hb, rfl, rfl, hend, fun _ => hnone⟩
    | some b =>
      obtain ⟨parts, hparts⟩ := exists_splitParts hparse (hend ▸ hbody) (hend ▸ hstop) b
      exact ⟨e, { e with parts := parts }, he, parse_of_some he hb hparts, rfl, rfl, hend,
        fun h => nomatch hb.symm.trans h⟩

/-- **`parse` gives an entity for every text.** -/
theorem exists_parseMessage (text : Text) : ∃ e, parseMessage text = some e := by
  obtain ⟨-, e, -, he, -⟩ := exists_parse MAX_DEPTH (Nat.zero_le _)
    (Nat.le_refl text.length)
  exact ⟨e, he⟩

end RagLeap.Rag.Mime
