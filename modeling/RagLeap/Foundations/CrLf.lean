import Mathlib.Data.List.TakeWhile

/-!
# Lines that end in two marks, or one of them

A text is cut into lines at each of two marks `cr` and `lf`, where `cr` and `lf` one after the other
count as one break. Of a text that was written down as one line after the other every line comes
back (`lines_concat`), and of any text that was written in front of a break and other lines
(`exists_lines_append`): its own lines, the last of them with this break. The exception is a text
that ends in `cr` in front of a break that starts with `lf`.
-/

namespace RagLeap.CrLf

variable {α : Type*} [DecidableEq α] (cr lf : α)

/-- A line and the marks at its end, none at the end of the text. -/
structure Line (α : Type*) where
  text : List α
  brk : List α

def Line.raw (l : Line α) : List α := l.text ++ l.brk

def isBreak (c : α) : Bool := c = cr ∨ c = lf

/-- The break that a text starts with. -/
def breakOf : List α → List α
  | [] => []
  | c :: s =>
    if c = cr ∧ s.head? = some lf then [cr, lf] else if isBreak cr lf c then [c] else []

/-- What the first line of a text holds. -/
def lineOf (s : List α) : List α := s.takeWhile fun c => !isBreak cr lf c

/-- The first line and its break. -/
def firstLine (s : List α) : Line α :=
  ⟨lineOf cr lf s, breakOf cr lf (s.drop (lineOf cr lf s).length)⟩

variable {cr lf} {s t b : List α}

variable (cr lf) in
theorem breakOf_prefix (s : List α) : breakOf cr lf s <+: s := by
  cases s with
  | nil => exact List.prefix_rfl
  | cons c s =>
    rw [breakOf]
    split_ifs with h hc
    · obtain ⟨rfl, hs⟩ := h
      obtain ⟨t, rfl⟩ : ∃ t, s = lf :: t := List.head?_eq_some_iff.1 hs
      exact ⟨t, rfl⟩
    · exact ⟨s, rfl⟩
    · exact List.nil_prefix

theorem breakOf_ne_nil {c : α} (h : isBreak cr lf c = true) (s : List α) :
    breakOf cr lf (c :: s) ≠ [] := by
  rw [breakOf, if_pos h]
  split_ifs <;> exact List.cons_ne_nil _ _

theorem lineOf_append (h : ∀ c ∈ t, isBreak cr lf c = false) (s : List α) :
    lineOf cr lf (t ++ s) = t ++ lineOf cr lf s :=
  List.takeWhile_append_of_pos fun c hc => by rw [h c hc]; rfl

theorem lineOf_cons_break {c : α} (h : isBreak cr lf c = true) (s : List α) :
    lineOf cr lf (c :: s) = [] := by
  rw [lineOf, List.takeWhile_cons_of_neg (by rw [h]; simp)]

theorem isBreak_of_mem_lineOf {c : α} (h : c ∈ lineOf cr lf s) : isBreak cr lf c = false := by
  simpa using List.mem_takeWhile_imp h

theorem drop_lineOf (s : List α) :
    s.drop (lineOf cr lf s).length = s.dropWhile fun c => !isBreak cr lf c := by
  have hsplit := List.takeWhile_append_dropWhile (p := fun c => !isBreak cr lf c) (l := s)
  calc s.drop (lineOf cr lf s).length
      = (lineOf cr lf s ++ s.dropWhile fun c => !isBreak cr lf c).drop (lineOf cr lf s).length :=
        congrArg (List.drop _) hsplit.symm
    _ = s.dropWhile fun c => !isBreak cr lf c := List.drop_left

/-- The first line stands at the start of the text. -/
theorem raw_firstLine_append (s : List α) :
    (firstLine cr lf s).raw ++ s.drop (firstLine cr lf s).raw.length = s := by
  have hpre : (firstLine cr lf s).raw <+: s := by
    obtain ⟨u, hu⟩ := breakOf_prefix cr lf (s.drop (lineOf cr lf s).length)
    refine ⟨u, ?_⟩
    rw [Line.raw, firstLine, List.append_assoc, hu, drop_lineOf]
    exact List.takeWhile_append_dropWhile
  obtain ⟨u, hu⟩ := hpre
  calc (firstLine cr lf s).raw ++ s.drop (firstLine cr lf s).raw.length
      = (firstLine cr lf s).raw ++
          ((firstLine cr lf s).raw ++ u).drop (firstLine cr lf s).raw.length := by rw [hu]
    _ = s := by rw [List.drop_left, hu]

variable (cr lf) in
theorem raw_firstLine_ne_nil (h : s ≠ []) : (firstLine cr lf s).raw ≠ [] := by
  obtain ⟨c, s, rfl⟩ := List.exists_cons_of_ne_nil h
  by_cases hc : isBreak cr lf c = true
  · rw [Line.raw, firstLine, lineOf_cons_break hc]
    exact breakOf_ne_nil hc s
  · rw [Line.raw, firstLine, lineOf, List.takeWhile_cons_of_pos (by simpa using hc)]
    exact List.cons_ne_nil _ _

variable (cr lf) in
theorem length_drop_firstLine_lt (h : s ≠ []) :
    s.length - (firstLine cr lf s).raw.length < s.length := by
  have hpos := List.length_pos_iff.2 (raw_firstLine_ne_nil cr lf h)
  have hs := List.length_pos_iff.2 h
  omega

variable (cr lf) in
/-- The lines of a text. -/
def lines (s : List α) : List (Line α) :=
  if s = [] then [] else firstLine cr lf s :: lines (s.drop (firstLine cr lf s).raw.length)
termination_by s.length
decreasing_by
  rw [List.length_drop]
  exact length_drop_firstLine_lt cr lf ‹_›

@[simp] theorem lines_nil : lines cr lf [] = [] := by
  rw [lines, if_pos rfl]

theorem lines_of_ne_nil (h : s ≠ []) :
    lines cr lf s = firstLine cr lf s :: lines cr lf (s.drop (firstLine cr lf s).raw.length) := by
  rw [lines, if_neg h]

theorem lines_of_firstLine {l : Line α} (h : firstLine cr lf (l.raw ++ t) = l) (hne : l.raw ≠ []) :
    lines cr lf (l.raw ++ t) = l :: lines cr lf t := by
  rw [lines_of_ne_nil (by simp [hne]), h, List.drop_left]

variable (cr lf) in
theorem flatMap_raw_lines (s : List α) : (lines cr lf s).flatMap Line.raw = s := by
  induction hn : s.length using Nat.strong_induction_on generalizing s with
  | h n ih =>
    by_cases hs : s = []
    · rw [hs, lines_nil, List.flatMap_nil]
    · have hlt := length_drop_firstLine_lt cr lf hs
      rw [lines_of_ne_nil hs, List.flatMap_cons, ih _ (by omega) _ List.length_drop,
        raw_firstLine_append]

/-! ## Breaks that are written -/

/-- A text starts with this break, whatever follows it. -/
def IsEnd (cr lf : α) (b : List α) : Prop := ∀ s, breakOf cr lf (b ++ s) = b

theorem isEnd_crlf : IsEnd cr lf [cr, lf] := fun s => by
  rw [List.cons_append, breakOf, if_pos ⟨rfl, rfl⟩]

theorem isEnd_lf (h : lf ≠ cr) : IsEnd cr lf [lf] := fun s => by
  rw [List.cons_append, breakOf, if_neg (fun hc => h hc.1), if_pos (by simp [isBreak])]

theorem IsEnd.lineOf_eq (h : IsEnd cr lf b) (hne : b ≠ []) (s : List α) :
    lineOf cr lf (b ++ s) = [] := by
  obtain ⟨c, b, rfl⟩ := List.exists_cons_of_ne_nil hne
  rw [List.cons_append]
  by_cases hc : isBreak cr lf c = true
  · exact lineOf_cons_break hc _
  · have hb := h s
    have hcr : c ≠ cr := fun hcr => hc (by simp [isBreak, hcr])
    rw [List.cons_append, breakOf, if_neg (fun h => hcr h.1), if_neg hc] at hb
    exact nomatch hb

theorem firstLine_append (ht : ∀ c ∈ t, isBreak cr lf c = false) (h : IsEnd cr lf b)
    (hne : b ≠ []) (s : List α) : firstLine cr lf (t ++ (b ++ s)) = ⟨t, b⟩ := by
  have hline : lineOf cr lf (t ++ (b ++ s)) = t := by
    rw [lineOf_append ht, h.lineOf_eq hne, List.append_nil]
  rw [firstLine, hline, List.drop_left, h s]

/-- A line that was written comes back. -/
theorem lines_concat (ht : ∀ c ∈ t, isBreak cr lf c = false) (h : IsEnd cr lf b) (hne : b ≠ [])
    (s : List α) : lines cr lf (t ++ (b ++ s)) = ⟨t, b⟩ :: lines cr lf s := by
  have hraw : t ++ (b ++ s) = (⟨t, b⟩ : Line α).raw ++ s := by rw [Line.raw, List.append_assoc]
  have hfirst : firstLine cr lf ((⟨t, b⟩ : Line α).raw ++ s) = ⟨t, b⟩ := by
    rw [← hraw, firstLine_append ht h hne]
  rw [hraw, lines_of_firstLine hfirst (by simp [Line.raw, hne])]

theorem lines_of_forall (hs : s ≠ []) (h : ∀ c ∈ s, isBreak cr lf c = false) :
    lines cr lf s = [⟨s, []⟩] := by
  have hline : lineOf cr lf s = s := by
    calc lineOf cr lf s = lineOf cr lf (s ++ []) := by rw [List.append_nil]
      _ = s := by rw [lineOf_append h, lineOf, List.takeWhile_nil, List.append_nil]
  have hfirst : firstLine cr lf s = ⟨s, []⟩ := by
    rw [firstLine, hline, List.drop_length]
    rfl
  rw [lines_of_ne_nil hs, hfirst, Line.raw, List.append_nil, List.drop_length, lines_nil]

/-! ## A text in front of a break -/

variable (cr lf) in
theorem exists_break (s : List α) : (∀ c ∈ s, isBreak cr lf c = false) ∨
    ∃ t c u, s = t ++ c :: u ∧ (∀ c ∈ t, isBreak cr lf c = false) ∧ isBreak cr lf c = true := by
  induction s with
  | nil => exact .inl fun c hc => nomatch hc
  | cons c s ih =>
    by_cases hc : isBreak cr lf c = true
    · exact .inr ⟨[], c, s, rfl, (fun c hc => nomatch hc), hc⟩
    · have hc : isBreak cr lf c = false := by simpa using hc
      rcases ih with hs | ⟨t, d, u, rfl, ht, hd⟩
      · exact .inl (List.forall_mem_cons.2 ⟨hc, hs⟩)
      · exact .inr ⟨c :: t, d, u, rfl, List.forall_mem_cons.2 ⟨hc, ht⟩, hd⟩

/-- What follows does not change the break, unless it completes one. -/
theorem breakOf_append (hne : s ≠ []) (h : s.getLast? = some cr → t.head? ≠ some lf) :
    breakOf cr lf (s ++ t) = breakOf cr lf s := by
  obtain ⟨c, s, rfl⟩ := List.exists_cons_of_ne_nil hne
  cases s with
  | nil =>
    have hcr : ¬(c = cr ∧ t.head? = some lf) := fun hc => h (by rw [hc.1]; rfl) hc.2
    have hnil : ¬(c = cr ∧ ([] : List α).head? = some lf) := fun hc => nomatch hc.2
    rw [List.cons_append, List.nil_append, breakOf, breakOf, if_neg hcr, if_neg hnil]
  | cons d s => rfl

theorem firstLine_append_of_break {c : α} {u : List α} (ht : ∀ c ∈ t, isBreak cr lf c = false)
    (hc : isBreak cr lf c = true) :
    firstLine cr lf (t ++ c :: u) = ⟨t, breakOf cr lf (c :: u)⟩ := by
  have hline : lineOf cr lf (t ++ c :: u) = t := by
    rw [lineOf_append ht, lineOf_cons_break hc, List.append_nil]
  rw [firstLine, hline, List.drop_left]

/-- The lines of a text in front of a break are its own lines; the last one has this break. -/
theorem exists_lines_append (hb : IsEnd cr lf b) (hne : b ≠ []) (v : List α) (s : List α)
    (hcr : s.getLast? = some cr → b.head? ≠ some lf) :
    ∃ ls l, lines cr lf (s ++ (b ++ v)) = ls ++ l :: lines cr lf v ∧ l.brk = b ∧
      (ls ++ [l]).flatMap Line.raw = s ++ b ∧
      ∀ m ∈ ls ++ [l], m.text = [] ∨ ∃ k ∈ lines cr lf s, k.text = m.text := by
  induction hn : s.length using Nat.strong_induction_on generalizing s with
  | h n ih =>
    rcases exists_break cr lf s with hs | ⟨t, c, u, rfl, ht, hc⟩
    · refine ⟨[], ⟨s, b⟩, lines_concat hs hb hne v, rfl, by simp [Line.raw], fun m hm => ?_⟩
      obtain rfl : m = ⟨s, b⟩ := List.mem_singleton.1 hm
      by_cases hnil : s = []
      · exact .inl hnil
      · exact .inr ⟨⟨s, []⟩, by rw [lines_of_forall hnil hs]; simp, rfl⟩
    · -- The break at `c` stays as it is, so the first line does; the induction is on the rest.
      have hlast : (c :: u).getLast? = some cr → (b ++ v).head? ≠ some lf := by
        intro h
        obtain ⟨d, b, rfl⟩ := List.exists_cons_of_ne_nil hne
        exact hcr (by rw [List.getLast?_append, h, Option.some_or])
      have hbreak : breakOf cr lf (c :: (u ++ (b ++ v))) = breakOf cr lf (c :: u) :=
        breakOf_append (List.cons_ne_nil c u) hlast
      obtain ⟨w, hw⟩ := breakOf_prefix cr lf (c :: u)
      set k := breakOf cr lf (c :: u)
      have hk : k ≠ [] := breakOf_ne_nil hc u
      have hraw : (⟨t, k⟩ : Line α).raw ≠ [] := by simp [Line.raw, hk]
      have hs : t ++ c :: u = (⟨t, k⟩ : Line α).raw ++ w := by
        rw [Line.raw, List.append_assoc, hw]
      have hfirst : firstLine cr lf (t ++ c :: u) = ⟨t, k⟩ := firstLine_append_of_break ht hc
      have hfirst' : firstLine cr lf (t ++ c :: u ++ (b ++ v)) = ⟨t, k⟩ := by
        rw [List.append_assoc, List.cons_append, firstLine_append_of_break ht hc, hbreak]
      have hwlen : w.length < n := by
        have hlen := congrArg List.length hs
        have hpos := List.length_pos_iff.2 hraw
        rw [hlen.trans List.length_append] at hn
        omega
      have hwcr : w.getLast? = some cr → b.head? ≠ some lf := by
        intro h
        exact hcr (by rw [hs, List.getLast?_append, h, Option.some_or])
      obtain ⟨ls, l, hlines, hl, hflat, htexts⟩ := ih w.length hwlen w hwcr rfl
      have hslines : lines cr lf (t ++ c :: u) = ⟨t, k⟩ :: lines cr lf w := by
        rw [hs] at hfirst ⊢
        exact lines_of_firstLine hfirst hraw
      refine ⟨⟨t, k⟩ :: ls, l, ?_, hl, ?_, ?_⟩
      · rw [hs, List.append_assoc] at hfirst' ⊢
        rw [lines_of_firstLine hfirst' hraw, hlines, List.cons_append]
      · rw [List.cons_append, List.flatMap_cons, hflat, hs, List.append_assoc]
      · rw [List.cons_append, List.forall_mem_cons, hslines]
        refine ⟨.inr ⟨_, List.mem_cons_self, rfl⟩, fun m hm => (htexts m hm).imp_right ?_⟩
        exact fun ⟨k', hk', heq⟩ => ⟨k', List.mem_cons_of_mem _ hk', heq⟩

end RagLeap.CrLf
