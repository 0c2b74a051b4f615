import Mathlib.Data.List.TakeWhile
import RagLeap.Foundations.Text
import RagLeap.Foundations.Words

/-!
# Lines and the white space around them

`Str.splitlines` cuts a text at every line break that Python knows, with `"\r\n"` as one. A line
that was written with an end of its own and holds none of `'\n'` and `'\r'` is found again, cut at
the other breaks in it (`splitlines_append`). The breaks are white space, so a text is still one
line after `strip` if the breaks stand at its ends only (`strip_pieces`).
-/

namespace RagLeap.Str

/-! ## White space at the ends -/

section Strip

variable {s : Str} {c : Char}

@[simp] theorem strip_nil : strip [] = [] := rfl

theorem strip_cons (h : isSpace c = true) (s : Str) : strip (c :: s) = strip s := by
  rw [strip, strip, List.dropWhile_cons_of_pos h]

theorem strip_concat (h : isSpace c = true) (s : Str) : strip (s ++ [c]) = strip s := by
  rw [strip, strip]
  by_cases hall : ∀ d ∈ s, isSpace d = true
  · rw [List.dropWhile_append_of_pos hall, List.dropWhile_eq_nil_iff.2 hall]
    simp [h]
  · have hne : s.dropWhile isSpace ≠ [] := fun hnil => hall (List.dropWhile_eq_nil_iff.1 hnil)
    have happ : (s ++ [c]).dropWhile isSpace = s.dropWhile isSpace ++ [c] := by
      rw [List.dropWhile_append, if_neg (by simpa using hne)]
    rw [happ, List.reverse_append, List.reverse_singleton, List.singleton_append,
      List.dropWhile_cons_of_pos h]

theorem strip_append {a b : Str} (ha : ∀ c ∈ a, isSpace c = true) (hb : ∀ c ∈ b, isSpace c = true)
    (s : Str) : strip (a ++ s ++ b) = strip s := by
  induction a with
  | nil =>
    rw [List.nil_append]
    induction b using List.reverseRecOn with
    | nil => rw [List.append_nil]
    | append_singleton b c ih =>
      rw [← List.append_assoc, strip_concat (hb c (by simp))]
      exact ih fun d hd => hb d (by simp [hd])
  | cons c a ih =>
    rw [List.cons_append, List.cons_append, strip_cons (ha c List.mem_cons_self)]
    exact ih fun d hd => ha d (List.mem_cons_of_mem c hd)

/-- A text is its stripped part with white space around it. -/
theorem exists_eq_strip (s : Str) : ∃ a b : Str, s = a ++ strip s ++ b ∧
    (∀ c ∈ a, isSpace c = true) ∧ ∀ c ∈ b, isSpace c = true := by
  have hback := List.takeWhile_append_dropWhile (p := isSpace) (l := (s.dropWhile isSpace).reverse)
  refine ⟨s.takeWhile isSpace, ((s.dropWhile isSpace).reverse.takeWhile isSpace).reverse, ?_,
    fun c hc => List.mem_takeWhile_imp hc,
    fun c hc => List.mem_takeWhile_imp (List.mem_reverse.1 hc)⟩
  rw [strip, List.append_assoc, ← List.reverse_append, hback, List.reverse_reverse,
    List.takeWhile_append_dropWhile]

theorem strip_eq_self (hhead : ∀ c ∈ s.head?, isSpace c = false)
    (hlast : ∀ c ∈ s.getLast?, isSpace c = false) : strip s = s := by
  have hdrop : ∀ t : Str, (∀ c ∈ t.head?, isSpace c = false) → t.dropWhile isSpace = t := by
    intro t ht
    cases t with
    | nil => rfl
    | cons d t => rw [List.dropWhile_cons_of_neg (by simp [ht d rfl])]
  rw [strip, hdrop s hhead, hdrop s.reverse (by simpa using hlast), List.reverse_reverse]

theorem head?_strip (s : Str) : ∀ c ∈ (strip s).head?, isSpace c = false := by
  intro c hc
  rw [strip, List.head?_reverse] at hc
  have hmem : (s.dropWhile isSpace).head? = some c := by
    have hsuffix := List.dropWhile_suffix isSpace (l := (s.dropWhile isSpace).reverse)
    obtain ⟨t, ht⟩ := hsuffix
    have hne : ((s.dropWhile isSpace).reverse.dropWhile isSpace) ≠ [] := by
      intro hnil
      rw [hnil] at hc
      exact nomatch hc
    rw [← List.getLast?_reverse, ← ht, List.getLast?_append_of_ne_nil _ hne]
    exact hc
  have hnot := List.head?_dropWhile_not isSpace s
  rw [hmem] at hnot
  simpa using hnot

theorem getLast?_strip (s : Str) : ∀ c ∈ (strip s).getLast?, isSpace c = false := by
  intro c hc
  rw [strip, List.getLast?_reverse] at hc
  have hnot := List.head?_dropWhile_not isSpace (s.dropWhile isSpace).reverse
  rw [hc] at hnot
  simpa using hnot

theorem strip_strip (s : Str) : strip (strip s) = strip s :=
  strip_eq_self (head?_strip s) (getLast?_strip s)

theorem mem_of_mem_strip (h : c ∈ strip s) : c ∈ s := by
  obtain ⟨a, b, heq, -, -⟩ := exists_eq_strip s
  rw [heq]
  simp [h]

theorem strip_ne_nil (h : c ∈ s) (hc : isSpace c = false) : strip s ≠ [] := by
  intro hnil
  obtain ⟨a, b, heq, ha, hb⟩ := exists_eq_strip s
  rw [heq, hnil, List.append_nil] at h
  rcases List.mem_append.1 h with h | h
  · exact absurd (ha c h) (by simp [hc])
  · exact absurd (hb c h) (by simp [hc])

theorem length_strip_le (s : Str) : (strip s).length ≤ s.length := by
  obtain ⟨a, b, heq, -, -⟩ := exists_eq_strip s
  have hlen := congrArg List.length heq
  rw [List.length_append, List.length_append] at hlen
  omega

end Strip

/-! ## Line breaks -/

/-- A character at which `splitlines` cuts. -/
def isBreak (c : Char) : Bool :=
  let n := c.toNat
  (10 ≤ n && n ≤ 13) || (28 ≤ n && n ≤ 30) || n == 0x85 || n == 0x2028 || n == 0x2029

theorem isSpace_of_isBreak {c : Char} (h : isBreak c = true) : isSpace c = true := by
  simp only [isBreak, Bool.or_eq_true, Bool.and_eq_true, decide_eq_true_eq, beq_iff_eq] at h
  simp only [isSpace, Bool.or_eq_true, Bool.and_eq_true, decide_eq_true_eq, beq_iff_eq]
  omega

/-- The lines of a text, with the line that is begun. -/
def linesFrom (line : Str) : Str → List Str
  | [] => if line = [] then [] else [line]
  | '\r' :: '\n' :: s => line :: linesFrom [] s
  | c :: s => if isBreak c then line :: linesFrom [] s else linesFrom (line ++ [c]) s

/-- `s.splitlines()`. -/
def splitlines (s : Str) : List Str := linesFrom [] s

/-- The ends that lines are written with. -/
inductive LineEnd
  | lf
  | crlf
  | cr

def LineEnd.text : LineEnd → Str
  | lf => ['\n']
  | crlf => ['\r', '\n']
  | cr => ['\r']

theorem linesFrom_cons {c : Char} (h : c ≠ '\r') (line s : Str) :
    linesFrom line (c :: s) =
      if isBreak c then line :: linesFrom [] s else linesFrom (line ++ [c]) s := by
  rw [linesFrom]
  rintro s' rfl
  exact absurd rfl h

/-- A line end ends the line. -/
theorem linesFrom_lineEnd {e : LineEnd} {s : Str} (h : e = .cr → s.head? ≠ some '\n')
    (line : Str) :
    linesFrom line (e.text ++ s) = line :: linesFrom [] s := by
  cases e with
  | lf =>
    rw [LineEnd.text, List.singleton_append, linesFrom_cons (by decide)]
    rfl
  | crlf => rw [LineEnd.text, List.cons_append, List.singleton_append, linesFrom]
  | cr =>
    rw [LineEnd.text, List.singleton_append, linesFrom]
    · rfl
    · rintro s' - rfl
      exact h rfl rfl

/-- A line that holds none of `'\n'` and `'\r'` is cut at the other breaks. -/
theorem linesFrom_append {e : LineEnd} {l s : Str} (hl : ∀ c ∈ l, c ≠ '\n' ∧ c ≠ '\r')
    (h : e = .cr → s.head? ≠ some '\n') (line : Str) (hline : ∀ c ∈ line, isBreak c = false) :
    linesFrom line (l ++ e.text ++ s) = (line ++ l).splitOnP isBreak ++ linesFrom [] s := by
  induction l generalizing line with
  | nil =>
    rw [List.nil_append, List.append_nil, linesFrom_lineEnd h, List.splitOnP_eq_singleton hline,
      List.singleton_append]
  | cons c l ih =>
    have hrest := fun line => ih (fun d hd => hl d (List.mem_cons_of_mem c hd)) line
    rw [List.cons_append, List.cons_append, linesFrom_cons (hl c List.mem_cons_self).2]
    by_cases hc : isBreak c = true
    · have hnil := hrest [] (by simp)
      rw [if_pos hc, hnil, List.splitOnP_append_cons _ _ hc, List.splitOnP_eq_singleton hline]
      rfl
    · rw [Bool.not_eq_true] at hc
      have hmore : ∀ d ∈ line ++ [c], isBreak d = false := by
        intro d hd
        rcases List.mem_append.1 hd with hd | hd
        · exact hline d hd
        · rwa [List.mem_singleton.1 hd]
      rw [hc, if_neg Bool.false_ne_true, hrest _ hmore, List.append_assoc, List.singleton_append]

/-- Lines with an end each. -/
def ended (e : LineEnd) (ls : List Str) : Str := ls.flatMap (· ++ e.text)

theorem head?_ended {ls : List Str} (h : ∀ l ∈ ls, ∀ c ∈ l, c ≠ '\n' ∧ c ≠ '\r') :
    (ended .cr ls).head? ≠ some '\n' := by
  cases ls with
  | nil => simp [ended]
  | cons l ls =>
    cases l with
    | nil => simp [ended, LineEnd.text]
    | cons c l => simpa [ended] using (h (c :: l) List.mem_cons_self c List.mem_cons_self).1

/-- **Lines are found again**, each cut at its own breaks. -/
theorem splitlines_ended (e : LineEnd) {ls : List Str}
    (h : ∀ l ∈ ls, ∀ c ∈ l, c ≠ '\n' ∧ c ≠ '\r') :
    splitlines (ended e ls) = ls.flatMap (List.splitOnP isBreak) := by
  induction ls with
  | nil => rfl
  | cons l ls ih =>
    have hrest := fun l' hl' => h l' (List.mem_cons_of_mem l hl')
    have hhead : e = .cr → (ended e ls).head? ≠ some '\n' := by
      rintro rfl
      exact head?_ended hrest
    have hline := linesFrom_append (h l List.mem_cons_self) hhead [] (by simp)
    rw [List.nil_append] at hline
    rw [splitlines] at ih ⊢
    rw [ended, List.flatMap_cons, ← ended, hline, ih hrest, List.flatMap_cons]

/-! ## Stripped pieces of a line -/

/-- The nonempty pieces of a line between its breaks, stripped. -/
def pieces (l : Str) : List Str := ((l.splitOnP isBreak).map strip).filter (· ≠ [])

theorem pieces_append_cons {c : Char} (h : isBreak c = true) (a b : Str) :
    pieces (a ++ c :: b) = pieces a ++ pieces b := by
  rw [pieces, List.splitOnP_append_cons a b h, List.map_append, List.filter_append]
  rfl

theorem pieces_of_not_isBreak {l : Str} (h : ∀ c ∈ l, isBreak c = false) (hne : strip l ≠ []) :
    pieces l = [strip l] := by
  rw [pieces, List.splitOnP_eq_singleton h]
  simp [hne]

theorem pieces_cons {c : Char} (h : isSpace c = true) (l : Str) : pieces (c :: l) = pieces l := by
  by_cases hc : isBreak c = true
  · exact pieces_append_cons hc [] l
  · obtain ⟨p, ps, hps⟩ := List.exists_cons_of_ne_nil (List.splitOnP_ne_nil isBreak l)
    have hsplit : (c :: l).splitOnP isBreak = (c :: p) :: ps := by
      rw [List.splitOnP_cons_eq_if_modifyHead, if_neg hc, hps, List.modifyHead_cons]
    rw [pieces, pieces, hsplit, hps, List.map_cons, List.map_cons, strip_cons h]

theorem pieces_leading {a : Str} (h : ∀ c ∈ a, isSpace c = true) (l : Str) :
    pieces (a ++ l) = pieces l := by
  induction a with
  | nil => rfl
  | cons c a ih =>
    rw [List.cons_append, pieces_cons (h c List.mem_cons_self)]
    exact ih fun d hd => h d (List.mem_cons_of_mem c hd)

theorem pieces_trailing {m b : Str} (hne : strip m ≠ []) (hm : ∀ c ∈ m, isBreak c = false)
    (hb : ∀ c ∈ b, isSpace c = true) : pieces (m ++ b) = [strip m] := by
  have hstrip : ∀ b : Str, (∀ c ∈ b, isSpace c = true) → strip (m ++ b) = strip m := by
    intro b hb
    simpa using strip_append (a := []) (by simp) hb m
  induction hn : b.length using Nat.strong_induction_on generalizing b with
  | _ n ih =>
    by_cases hall : ∀ c ∈ b, isBreak c = false
    · rw [pieces_of_not_isBreak (fun c hc => (List.mem_append.1 hc).elim (hm c) (hall c)),
        hstrip b hb]
      rwa [hstrip b hb]
    · -- The first part ends at a break, and the rest of the white space has no pieces.
      simp only [not_forall, Bool.not_eq_false] at hall
      obtain ⟨c, hc, hbreak⟩ := hall
      obtain ⟨b₁, b₂, rfl⟩ := List.append_of_mem hc
      have hlen : b₁.length < n := by
        rw [← hn, List.length_append, List.length_cons]
        omega
      have hb₂ : pieces b₂ = [] := by
        have hlead := pieces_leading (a := b₂) (fun d hd => hb d (by simp [hd])) []
        rw [List.append_nil] at hlead
        exact hlead
      rw [← List.append_assoc, pieces_append_cons hbreak, hb₂, List.append_nil]
      exact ih _ hlen (fun d hd => hb d (by simp [hd])) rfl

/-- **A line without breaks inside is one piece.** -/
theorem pieces_eq_singleton {l : Str} (hne : strip l ≠ [])
    (h : ∀ c ∈ strip l, isBreak c = false) : pieces l = [strip l] := by
  obtain ⟨a, b, heq, ha, hb⟩ := exists_eq_strip l
  have htrail := pieces_trailing (by rwa [strip_strip]) h hb
  rw [strip_strip] at htrail
  calc pieces l = pieces (a ++ (strip l ++ b)) := by rw [← List.append_assoc, ← heq]
    _ = [strip l] := by rw [pieces_leading ha, htrail]

theorem not_isBreak_of_mem_pieces {l p : Str} (h : p ∈ pieces l) {c : Char} (hc : c ∈ p) :
    isBreak c = false := by
  obtain ⟨hmem, hne⟩ := List.mem_filter.1 h
  obtain ⟨q, hq, rfl⟩ := List.mem_map.1 hmem
  have hq' : q ≠ [] := by
    rintro rfl
    simp at hne
  exact not_of_mem_wordsOf (List.mem_filter.2 ⟨hq, by simpa using hq'⟩) (mem_of_mem_strip hc)

end RagLeap.Str
