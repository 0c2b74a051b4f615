import RagLeap.Rag.MimeCompose

/-!
# A composed MIME message is read back

`readHeaders` finds the headers of a part and its body (`readHeaders_text`), `splitAt` the boundary
of a multipart (`splitAt_field`), and the loop of `splitParts` every part behind its delimiter
(`exists_sections`). By induction over the levels `parse` reads a whole message back.
-/

namespace RagLeap.Rag.Mime

open Scan CrLf

variable {text s : Text} {pos : ℕ} {eol : Eol}

/-! ## Headers -/

theorem startsWith_self (s w : Text) : startsWith s w 0 = decide (w <+: s) := by
  by_cases hlen : w.length ≤ s.length
  · exact (holds_self s).startsWith_eq hlen
  · rw [startsWith, eq_comm]
    refine decide_eq_decide.2 ⟨fun h => absurd h.length_le hlen, fun h => ?_⟩
    omega

theorem lines_eol {t : Text} (ht : ∀ c ∈ t, isBreak cr lf c = false) (s : Text) :
    lines cr lf (t ++ (eol.text ++ s)) = ⟨t, eol.text⟩ :: lines cr lf s :=
  lines_concat ht (isEnd_eol eol) (eol_ne_nil eol) s

theorem lines_texts {ts : List Text} (hts : ∀ t ∈ ts, ∀ c ∈ t, isBreak cr lf c = false) (s : Text) :
    lines cr lf (ts.flatMap (· ++ eol.text) ++ s) =
      ts.map (⟨·, eol.text⟩) ++ lines cr lf s := by
  induction ts with
  | nil => rfl
  | cons t ts ih =>
    rw [List.forall_mem_cons] at hts
    rw [List.flatMap_cons, List.append_assoc, List.append_assoc, lines_eol hts.1, ih hts.2]
    rfl

theorem length_flatMap_add {α : Type} (n : ℕ) (f : α → Text) (a : α) (as : List α) :
    n + (f a).length + (as.flatMap f).length = n + ((a :: as).flatMap f).length := by
  rw [List.flatMap_cons, List.length_append, Nat.add_assoc]

namespace Field

theorem firstLine_ok (f : Field) : ∀ c ∈ f.firstLine, isBreak cr lf c = false := by
  have hname : ∀ c : Latin1, isNameChar c = true → isBreak cr lf c = false := by
    decide +kernel
  intro c hc
  rcases List.mem_append.1 hc with hc | hc
  · exact hname c (f.name_ok c hc).1
  · rcases List.mem_cons.1 hc with rfl | hc
    · decide
    · rcases List.mem_cons.1 hc with rfl | hc
      · decide
      · exact f.first_ok c hc

theorem not_from (f : Field) : ¬lit "From " <+: f.firstLine := by
  intro h
  -- The name and the colon are characters of names; of `From ` only the first four are.
  have hall : ∀ c ∈ f.name ++ [ch ':'], isNameChar c = true := by
    intro c hc
    rcases List.mem_append.1 hc with hc | hc
    · exact (f.name_ok c hc).1
    · rw [List.mem_singleton.1 hc]
      decide
  obtain ⟨t, ht⟩ := h
  have htake : f.firstLine.takeWhile isNameChar = lit "From" := by
    rw [← ht]
    rfl
  have hmem : ch ':' ∈ f.firstLine.takeWhile isNameChar := by
    have hline : f.firstLine = (f.name ++ [ch ':']) ++ ch ' ' :: f.first := by
      rw [firstLine, List.append_assoc, List.singleton_append]
    rw [hline, List.takeWhile_append_of_pos hall]
    simp
  rw [htake] at hmem
  exact absurd hmem (by decide)

theorem not_blank (f : Field) {w : Latin1} (hw : isNameChar w = false) :
    ¬[w] <+: f.firstLine := by
  rintro ⟨t, ht⟩
  obtain ⟨c, name, hname⟩ := List.exists_cons_of_ne_nil f.name_ne
  rw [firstLine, hname, List.singleton_append, List.cons_append] at ht
  have hc := (f.name_ok c (hname ▸ List.mem_cons_self)).1
  rw [← (List.cons.inj ht).1, hw] at hc
  exact nomatch hc

theorem headerLine_firstLine (f : Field) (eol next : ℕ) (st : HeaderScan) :
    headerLine f.firstLine eol next st =
      some (⟨next, false, some ⟨f.name, f.first⟩, st.closed⟩, true) := by
  have hne : f.firstLine ≠ [] := by simp [firstLine]
  have hcolon : indexOf f.firstLine (ch ':') = some f.name.length :=
    indexOf_append (fun h => (f.name_ok _ h).2 rfl) _
  have hall : f.name.all isNameChar = true :=
    List.all_eq_true.2 fun c hc => (f.name_ok c hc).1
  have hfirst : (ch ' ' :: f.first).dropWhile isBlank = f.first := by
    rw [List.dropWhile_cons_of_pos (by decide)]
    cases hf : f.first with
    | nil => rfl
    | cons c t =>
      rw [List.dropWhile_cons_of_neg]
      rw [f.first_head c (by rw [hf]; rfl)]
      exact Bool.false_ne_true
  have hstart := startOfHeader_eq f.name (ch ' ' :: f.first)
  rw [if_pos hall, hfirst] at hstart
  have hspace : ¬lit " " <+: f.firstLine := f.not_blank (by decide)
  have htab : ¬lit "\t" <+: f.firstLine := f.not_blank (by decide)
  obtain ⟨n, hn⟩ := Nat.exists_eq_succ_of_ne_zero (List.length_pos_iff.2 f.name_ne).ne'
  rw [headerLine, if_neg (fun h => hne h.1), if_neg (fun h => f.not_from (by
    simpa [startsWith_self] using h.2)), if_neg (by simp [startsWith_self, hspace, htab]), hcolon]
  rw [hn] at hstart ⊢
  have hline : f.name ++ ch ':' :: ch ' ' :: f.first = f.firstLine := rfl
  rw [hline] at hstart
  simp only [hstart, Option.bind_eq_bind, Option.bind_some]

theorem headerLine_more {t : Text} (ht : ∃ c ∈ t.head?, isBlank c = true) (eol next : ℕ)
    {st : HeaderScan} (hst : st.first = false) :
    headerLine t eol next st = some ({ st with
      pos := next
      cur := st.cur.map fun h => { h with value := h.value ++ t } }, true) := by
  obtain ⟨c, hc, hblank⟩ := ht
  obtain ⟨u, rfl⟩ := List.head?_eq_some_iff.1 hc
  have hstart : startsWith (c :: u) (lit " ") 0 = true ∨
      startsWith (c :: u) (lit "\t") 0 = true := by
    rw [isBlank, decide_eq_true_eq] at hblank
    rw [startsWith_self, startsWith_self, decide_eq_true_eq, decide_eq_true_eq]
    rcases hblank with rfl | rfl
    · exact .inl ⟨u, rfl⟩
    · exact .inr ⟨u, rfl⟩
  rw [headerLine, if_neg (by simp), if_neg (by simp [hst]), if_pos hstart, hst]

/-- The further lines of a header go to its value. -/
theorem runLines_more (more : List Text) (hmore : ∀ t ∈ more, ∃ c ∈ t.head?, isBlank c = true)
    (ls : List (Line Latin1)) (name value : Text) (headers : List Header) :
    runLines headerBody pos (more.map (⟨·, eol.text⟩) ++ ls)
        ⟨pos, false, some ⟨name, value⟩, headers⟩ =
      runLines headerBody (pos + (more.flatMap (· ++ eol.text)).length) ls
        ⟨pos + (more.flatMap (· ++ eol.text)).length, false,
          some ⟨name, value ++ more.flatten⟩, headers⟩ := by
  induction more generalizing pos value with
  | nil => simp
  | cons t more ih =>
    have hstep : headerBody pos ⟨t, eol.text⟩ ⟨pos, false, some ⟨name, value⟩, headers⟩ =
        some (⟨pos + (t ++ eol.text).length, false, some ⟨name, value ++ t⟩, headers⟩, true) :=
      headerLine_more (hmore t List.mem_cons_self) _ _ rfl
    have hlen := length_flatMap_add pos (· ++ eol.text) t more
    rw [List.map_cons, List.cons_append, runLines_of_some hstep, Line.raw,
      ih (fun t ht => hmore t (List.mem_cons_of_mem _ ht)), hlen, List.flatten_cons,
      List.append_assoc]

/-- The lines of a header. -/
def lines (eol : Eol) (f : Field) : List (Line Latin1) :=
  (f.firstLine :: f.more).map (⟨·, eol.text⟩)

theorem runLines_lines (f : Field) (ls : List (Line Latin1)) (st : HeaderScan) :
    runLines headerBody pos (f.lines eol ++ ls) st =
      runLines headerBody (pos + (f.text eol).length) ls
        ⟨pos + (f.text eol).length, false, some f.header, st.closed⟩ := by
  have hstep : headerBody pos ⟨f.firstLine, eol.text⟩ st =
      some (⟨pos + (f.firstLine ++ eol.text).length, false, some ⟨f.name, f.first⟩, st.closed⟩,
        true) := f.headerLine_firstLine _ _ st
  have hlen := length_flatMap_add pos (· ++ eol.text) f.firstLine f.more
  rw [lines, List.map_cons, List.cons_append, runLines_of_some hstep, Line.raw,
    runLines_more f.more (fun t ht => (f.more_ok t ht).2), hlen, text, header]

theorem lines_text (f : Field) (s : Text) :
    CrLf.lines cr lf (f.text eol ++ s) = f.lines eol ++ CrLf.lines cr lf s := by
  have hok : ∀ t ∈ f.firstLine :: f.more, ∀ c ∈ t, isBreak cr lf c = false :=
    List.forall_mem_cons.2 ⟨f.firstLine_ok, fun t ht => (f.more_ok t ht).1⟩
  exact lines_texts hok s

end Field

theorem lines_fields (fs : List Field) (s : Text) :
    lines cr lf (fs.flatMap (Field.text eol) ++ s) =
      fs.flatMap (Field.lines eol) ++ lines cr lf s := by
  induction fs with
  | nil => rfl
  | cons f fs ih =>
    rw [List.flatMap_cons, List.append_assoc, f.lines_text, ih, List.flatMap_cons,
      List.append_assoc]

theorem runLines_fields (eol : Eol) (pos : ℕ) (fs : List Field) (ls : List (Line Latin1))
    (st : HeaderScan) :
    ∃ st', runLines headerBody pos (fs.flatMap (Field.lines eol) ++ ls) st =
        runLines headerBody (pos + (fs.flatMap (Field.text eol)).length) ls st' ∧
      st'.closed = st.closed ++ fs.map Field.header := by
  induction fs generalizing pos st with
  | nil => exact ⟨st, rfl, (List.append_nil _).symm⟩
  | cons f fs ih =>
    obtain ⟨st', hrun, hclosed⟩ :=
      @ih (pos + (f.text eol).length) ⟨pos + (f.text eol).length, false, some f.header, st.closed⟩
    refine ⟨st', ?_, ?_⟩
    · rw [List.flatMap_cons, List.append_assoc, f.runLines_lines, hrun, length_flatMap_add]
    · rw [hclosed, List.map_cons, HeaderScan.closed, List.append_assoc]
      rfl

/-- **The headers of a part and its body are found.** -/
theorem readHeaders_text (p : Part) (h : Holds text pos (p.text eol)) :
    readHeaders text pos (pos + (p.text eol).length) =
      some ⟨p.fields.map Field.header, pos + (p.head eol).length, pos + (p.text eol).length,
        none⟩ := by
  have hlines : lines cr lf (p.text eol) =
      p.fields.flatMap (Field.lines eol) ++ ⟨[], eol.text⟩ :: lines cr lf (p.body eol) := by
    have hnil : ∀ c ∈ ([] : Text), isBreak cr lf c = false := fun c hc => nomatch hc
    have hblank : lines cr lf ([] ++ (eol.text ++ p.body eol)) = _ := lines_eol hnil (p.body eol)
    rw [Part.text, Part.head, List.append_assoc, lines_fields, ← hblank]
    rfl
  obtain ⟨st, hrun, hclosed⟩ := runLines_fields eol pos p.fields
    (⟨[], eol.text⟩ :: lines cr lf (p.body eol)) ⟨pos, true, none, []⟩
  have hlen : 0 < eol.text.length := List.length_pos_iff.2 (eol_ne_nil eol)
  have hstop : headerBody (pos + (p.fields.flatMap (Field.text eol)).length) ⟨[], eol.text⟩ st =
      some ({ st with pos := pos + (p.head eol).length }, false) := by
    rw [headerBody, headerLine, if_pos ⟨rfl, by simpa [Line.raw] using hlen⟩, Part.head,
      List.length_append, Line.raw, List.nil_append, Nat.add_assoc]
  rw [readHeaders_eq h, hlines, hrun, runLines_of_stop hstop, Option.map_some]
  exact congrArg some (by rw [HeaderScan.closed] at hclosed ⊢; simp only [hclosed]; rfl)

/-! ## The boundary -/

theorem stripTrailing_append {c : Latin1} (hc : isWhitespace c = false) (a s : Text) :
    ∃ t, stripTrailing (a ++ c :: s) = a ++ c :: t ∧ t <+: s := by
  induction s using List.reverseRecOn with
  | nil =>
    refine ⟨[], List.rdropWhile_concat_neg _ _ _ ?_, List.prefix_rfl⟩
    rw [hc]
    exact Bool.false_ne_true
  | append_singleton s d ih =>
    have happ : a ++ c :: (s ++ [d]) = (a ++ c :: s) ++ [d] := by simp
    by_cases hd : isWhitespace d = true
    · obtain ⟨t, ht, hts⟩ := ih
      refine ⟨t, ?_, hts.trans (List.prefix_append _ _)⟩
      rw [happ, stripTrailing, List.rdropWhile_concat_pos _ _ _ hd]
      exact ht
    · exact ⟨s ++ [d], by rw [happ, stripTrailing, List.rdropWhile_concat_neg _ _ _ hd],
        List.prefix_rfl⟩

theorem stripTrailing_of_getLast? (h : ∃ c ∈ s.getLast?, isWhitespace c = false) :
    s ≠ [] ∧ stripTrailing s = s := by
  obtain ⟨c, hc, hspace⟩ := h
  obtain ⟨t, rfl⟩ : ∃ t, s = t ++ [c] := by
    obtain ⟨t, ht⟩ := List.getLast?_eq_some_iff.1 hc
    exact ⟨t, ht⟩
  exact ⟨by simp, List.rdropWhile_concat_neg _ _ _ (by rw [hspace]; exact Bool.false_ne_true)⟩

namespace Multipart

theorem beforeSemi_value (d : Multipart) :
    beforeSemi d.value = some (lit "multipart/" ++ d.sub) := by
  have hnot : ch ';' ∉ lit "multipart/" ++ d.sub := by
    intro h
    rcases List.mem_append.1 h with h | h
    · exact absurd h (by decide)
    · exact (d.sub_ok _ h).2.2 rfl
  have hindex := indexOf_append hnot (ch ' ' :: (lit "boundary" ++ ch '=' :: ch '"' ::
    (quote d.boundary ++ [ch '"'])))
  rw [beforeSemi, value, hindex]
  exact (holds_self _).left.substring_eq (Nat.zero_add _).symm

/-- The type that the header declares, whatever the case of its letters. -/
theorem exists_strip (d : Multipart) : ∃ t : Text, toLowerCase (strip (lit "multipart/" ++ d.sub)) =
    lit "multipart/" ++ toLowerCase t ∧ ∀ c ∈ t, c ≠ ch '/' := by
  have happ : (lit "multipart/" ++ d.sub).dropWhile isWhitespace =
      lit "multipart" ++ ch '/' :: d.sub := rfl
  obtain ⟨t, ht, hpre⟩ := stripTrailing_append (c := ch '/') (by decide) (lit "multipart") d.sub
  refine ⟨t, ?_, fun c hc => (d.sub_ok c (hpre.subset hc)).2.1⟩
  rw [strip, happ, ht, toLowerCase, List.map_append, List.map_cons]
  rfl

theorem toLower_eq_slash : ∀ c : Latin1, toLower c = ch '/' → c = ch '/' := by
  decide +kernel

theorem contentType_value {headers : List Header} (d : Multipart)
    (h : Mime.header headers (lit "content-type") = some d.value) :
    ∃ t, contentType headers = some (lit "multipart/" ++ t) := by
  obtain ⟨t, ht, hslash⟩ := d.exists_strip
  have hnot : ch '/' ∉ toLowerCase t := by
    intro hmem
    obtain ⟨c, hc, heq⟩ := List.mem_map.1 hmem
    exact hslash c hc (toLower_eq_slash c heq)
  have hindex : indexOf (lit "multipart/" ++ toLowerCase t) (ch '/') = some 9 :=
    indexOf_append (a := lit "multipart") (by decide) (toLowerCase t)
  have hdrop : (lit "multipart/" ++ toLowerCase t).drop (9 + 1) = toLowerCase t := rfl
  refine ⟨toLowerCase t, ?_⟩
  rw [contentType, h]
  simp only [d.beforeSemi_value, Option.bind_eq_bind, Option.bind_some, ht, hindex, hdrop,
    if_neg hnot]

theorem quoted_quote {header rest : Text} {i fuel : ℕ} (b q : Text)
    (h : Holds header i (quote b ++ ch '"' :: rest)) (hfuel : header.length - i ≤ fuel) :
    quoted header fuel i q = some (q ++ b, i + (quote b).length) := by
  induction b generalizing i fuel q with
  | nil =>
    have hlt := h.length_le
    rw [List.length_append, List.length_cons] at hlt
    obtain ⟨fuel, rfl⟩ := Nat.exists_eq_succ_of_ne_zero (n := fuel) (by omega)
    have hc : charAt header i = some (ch '"') := h.charAt_eq
    rw [quoted, if_pos (by omega), hc, Option.bind_eq_bind, Option.bind_some, if_pos rfl,
      List.append_nil]
    rfl
  | cons c b ih =>
    have hlt := h.length_le
    by_cases hesc : c = ch '"' ∨ c = ch '\\'
    · have hquote : quote (c :: b) = ch '\\' :: c :: quote b := by
        rw [quote, List.flatMap_cons, if_pos hesc]
        rfl
      rw [hquote] at h hlt ⊢
      simp only [List.cons_append, List.length_cons] at hlt
      obtain ⟨fuel, rfl⟩ := Nat.exists_eq_succ_of_ne_zero (n := fuel) (by omega)
      have hback : charAt header i = some (ch '\\') := h.charAt_eq
      have hc : charAt header (i + 1) = some c := h.tail.charAt_eq
      rw [quoted, if_pos (by omega), hback, Option.bind_eq_bind, Option.bind_some,
        if_neg (by decide), if_pos ⟨rfl, by omega⟩, hc, Option.bind_some,
        ih (q ++ [c]) h.tail.tail (by omega), List.append_assoc, List.singleton_append]
      congr 2
      simp only [List.length_cons]
      omega
    · have hquote : quote (c :: b) = c :: quote b := by
        rw [quote, List.flatMap_cons, if_neg hesc]
        rfl
      rw [not_or] at hesc
      rw [hquote] at h hlt ⊢
      simp only [List.cons_append, List.length_cons] at hlt
      obtain ⟨fuel, rfl⟩ := Nat.exists_eq_succ_of_ne_zero (n := fuel) (by omega)
      have hc : charAt header i = some c := h.charAt_eq
      rw [quoted, if_pos (by omega), hc, Option.bind_eq_bind, Option.bind_some, if_neg hesc.1,
        if_neg (fun h => hesc.2 h.1), ih (q ++ [c]) h.tail (by omega), List.append_assoc,
        List.singleton_append]
      congr 2
      simp only [List.length_cons]
      omega

theorem paramValue_quote {header : Text} {i : ℕ} (b : Text)
    (h : Holds header i (ch '"' :: (quote b ++ [ch '"'])))
    (hend : header.length = i + (ch '"' :: (quote b ++ [ch '"'])).length) :
    paramValue header i = some (b, header.length) := by
  have hlen : header.length = i + 1 + (quote b).length + 1 := by
    rw [hend, List.length_cons, List.length_append, List.length_singleton]
    omega
  have hblank : skip isBlank header i header.length = some i := by
    rw [h.skip_eq isBlank hend, List.takeWhile_cons_of_neg (by decide)]
    rfl
  have hquote : charIs header i (ch '"') false = some true := by
    rw [charIs_of_lt h.charAt_eq (by omega), beq_self_eq_true]
  have hquoted := quoted_quote b [] h.tail (Nat.le_refl _)
  have hskip : skip (· ≠ ch ';') header header.length header.length = some header.length := by
    rw [skip, Nat.sub_self]
    rfl
  rw [List.nil_append] at hquoted
  simp only [paramValue, hblank, hquote, hquoted, Option.bind_eq_bind, Option.bind_some, if_true]
  rw [if_pos (by omega), ← hlen, hskip, Option.bind_some]

theorem paramItem_boundary {header : Text} {i : ℕ} (b : Text)
    (h : Holds header i
      (ch ' ' :: (lit "boundary" ++ ch '=' :: ch '"' :: (quote b ++ [ch '"']))))
    (hend : header.length =
      i + (ch ' ' :: (lit "boundary" ++ ch '=' :: ch '"' :: (quote b ++ [ch '"']))).length) :
    paramItem header i = some (lit "boundary", some b, header.length) := by
  set value := ch '"' :: (quote b ++ [ch '"'])
  have hname : ∀ c ∈ lit "boundary", decide (c ≠ ch '=' ∧ c ≠ ch ';') = true := by
    decide +kernel
  have hstart : skip (fun c => decide (isBlank c ∨ c = ch ';')) header i header.length =
      some (i + 1) := by
    rw [h.skip_eq _ hend]
    rfl
  have hrest : header.length = i + 1 + (lit "boundary" ++ ch '=' :: value).length := by
    rw [hend, List.length_cons]
    omega
  have hstop : skip (fun c => decide (c ≠ ch '=' ∧ c ≠ ch ';')) header (i + 1) header.length =
      some (i + 1 + (lit "boundary").length) := by
    rw [h.tail.skip_eq _ hrest, List.takeWhile_append_of_pos hname,
      List.takeWhile_cons_of_neg (by decide), List.append_nil]
  have heq : Holds header (i + 1 + (lit "boundary").length) (ch '=' :: value) := h.tail.right
  rw [List.length_append, List.length_cons] at hrest
  have hsemi : charIs header (i + 1 + (lit "boundary").length) (ch ';') true = some false := by
    rw [charIs_of_lt heq.charAt_eq (by omega)]
    rfl
  have hstrip : strip (lit "boundary") = lit "boundary" := by decide
  have hvalue : paramValue header (i + 1 + (lit "boundary").length + 1) =
      some (b, header.length) := by
    refine paramValue_quote b heq.tail ?_
    change header.length = _ + value.length
    omega
  simp only [paramItem, hstart, hstop, h.tail.left.substring_eq rfl, hsemi, hstrip, hvalue,
    Option.bind_eq_bind, Option.bind_some, Bool.false_eq_true, if_false]

/-- **The boundary of the header comes back.** -/
theorem param_value (d : Multipart) :
    param (some d.value) (lit "boundary") = some (some d.boundary) := by
  set rest := ch ' ' :: (lit "boundary" ++ ch '=' :: ch '"' :: (quote d.boundary ++ [ch '"']))
  have hvalue : d.value = lit "multipart/" ++ d.sub ++ ch ';' :: rest := rfl
  have hnot : ch ';' ∉ lit "multipart/" ++ d.sub := by
    intro h
    rcases List.mem_append.1 h with h | h
    · exact absurd h (by decide)
    · exact (d.sub_ok _ h).2.2 rfl
  have hindex : indexOf d.value (ch ';') = some (lit "multipart/" ++ d.sub).length :=
    indexOf_append hnot rest
  have hheld : Holds d.value ((lit "multipart/" ++ d.sub).length + 1) rest := by
    have hright := (holds_self (lit "multipart/" ++ d.sub ++ ch ';' :: rest)).right.tail
    rwa [Nat.zero_add] at hright
  have hlen : d.value.length = (lit "multipart/" ++ d.sub).length + 1 + rest.length := by
    rw [hvalue, List.length_append, List.length_cons]
    omega
  have hpos : 0 < rest.length := Nat.succ_pos _
  have hitem := paramItem_boundary d.boundary hheld hlen
  obtain ⟨fuel, hfuel⟩ := Nat.exists_eq_succ_of_ne_zero
    (n := d.value.length - ((lit "multipart/" ++ d.sub).length + 1)) (by omega)
  have hsame : equalsIgnoreCase (lit "boundary") (lit "boundary") = true := decide_eq_true rfl
  simp only [param, hindex, hfuel, paramFrom, hitem, hsame, Option.bind_eq_bind, Option.bind_some,
    if_true]
  rw [if_pos (by omega)]

end Multipart

theorem header_cons (h : Header) (hs : List Header) (name : Text) : header (h :: hs) name =
    if equalsIgnoreCase h.name name then some h.value else header hs name := by
  rw [header, header, List.find?_cons]
  split
  · next heq => rw [if_pos heq, Option.map_some]
  · next heq => rw [if_neg (by rw [heq]; exact Bool.false_ne_true)]

theorem header_field {before : List Field} (d : Multipart) (after : List Field)
    (h : ∀ f ∈ before, equalsIgnoreCase f.name (lit "content-type") = false) :
    header ((before ++ d.field :: after).map Field.header) (lit "content-type") =
      some d.value := by
  have hname : equalsIgnoreCase (lit "Content-Type") (lit "content-type") = true := by
    decide +kernel
  induction before with
  | nil =>
    have hfield : equalsIgnoreCase d.field.header.name (lit "content-type") = true := hname
    rw [List.nil_append, List.map_cons, header_cons, if_pos hfield]
    exact congrArg some (List.append_nil _)
  | cons f fs ih =>
    rw [List.forall_mem_cons] at h
    rw [List.cons_append, List.map_cons, header_cons, if_neg (by simp [Field.header, h.1])]
    exact ih h.2

/-- **The headers of a multipart say where to split.** -/
theorem splitAt_field {before after : List Field} {d : Multipart}
    (h : ∀ f ∈ before, equalsIgnoreCase f.name (lit "content-type") = false)
    (hlast : ∃ c ∈ d.boundary.getLast?, isWhitespace c = false) :
    splitAt ((before ++ d.field :: after).map Field.header) = some (some d.boundary) := by
  have hheader := header_field d after h
  obtain ⟨t, ht⟩ := d.contentType_value hheader
  obtain ⟨hne, hstrip⟩ := stripTrailing_of_getLast? hlast
  have hstart : startsWith (lit "multipart/" ++ t) (lit "multipart/") 0 = true := by
    rw [startsWith_self, decide_eq_true_eq]
    exact List.prefix_append _ _
  simp only [splitAt, ht, hheader, hstart, d.param_value, Option.bind_eq_bind, Option.bind_some,
    if_true, if_neg hne, hstrip]

/-! ## The parts -/

theorem isBreak_dashes : ∀ c ∈ lit "--", isBreak cr lf c = false := by decide +kernel

section Parts

variable {parse : ℕ → ℕ → Option Entity} {delim : Text}

theorem kindOf_of_not (h : ¬delim <+: s) : kindOf delim s = .other := if_neg h

theorem kindOf_delim (delim : Text) : kindOf delim delim = .opening := by
  have happ := kindOf_append delim []
  rw [List.append_nil] at happ
  rw [happ, if_neg (by decide)]
  rfl

theorem kindOf_close (delim : Text) : kindOf delim (delim ++ lit "--") = .closing := by
  rw [kindOf_append, if_pos List.prefix_rfl, if_pos (by decide)]

/-- Lines that are no delimiters are passed over, and the length of the last break is kept. -/
theorem runLines_other (parse : ℕ → ℕ → Option Entity) {ls : List (Line Latin1)}
    (hls : ∀ l ∈ ls, kindOf delim l.text = .other) (rest : List (Line Latin1)) (pos : ℕ)
    (st : SplitScan) : ∃ k, runLines (splitBody parse delim) pos (ls ++ rest) st =
      runLines (splitBody parse delim) (pos + (ls.flatMap Line.raw).length) rest
        { st with prevEolLen := k } := by
  induction ls generalizing pos st with
  | nil => exact ⟨st.prevEolLen, rfl⟩
  | cons l ls ih =>
    rw [List.forall_mem_cons] at hls
    have hstep : splitBody parse delim pos l st =
        some ({ st with prevEolLen := pos + l.raw.length - (pos + l.text.length) }, true) := by
      rw [splitBody, hls.1, splitLine]
    obtain ⟨k, hk⟩ := ih hls.2 (pos + l.raw.length)
      { st with prevEolLen := pos + l.raw.length - (pos + l.text.length) }
    refine ⟨k, ?_⟩
    rw [List.cons_append, runLines_of_some hstep, hk, List.flatMap_cons, List.length_append,
      Nat.add_assoc]

/-- A delimiter and the text of a part behind it, up to the line break of the next delimiter. -/
theorem runLines_section {t : Text} (hdelim : ∀ c ∈ delim, isBreak cr lf c = false)
    (hne : delim ≠ []) (ht : ∀ l ∈ lines cr lf t, ¬delim <+: l.text)
    (hcr : eol = .lf → t.getLast? ≠ some cr) (rest : Text) {st : SplitScan} {parts : List Entity}
    (hst : st.closed parse pos = some parts) :
    runLines (splitBody parse delim) pos
        (lines cr lf (delim ++ (eol.text ++ (t ++ (eol.text ++ rest))))) st =
      runLines (splitBody parse delim)
        (pos + delim.length + eol.text.length + t.length + eol.text.length) (lines cr lf rest)
        ⟨true, true, pos + delim.length + eol.text.length, eol.text.length, parts⟩ := by
  have hopen : splitBody parse delim pos ⟨delim, eol.text⟩ st =
      some (⟨true, true, pos + delim.length + eol.text.length, eol.text.length, parts⟩, true) := by
    have hbreak : pos + (delim.length + eol.text.length) - (pos + delim.length) =
        eol.text.length := by omega
    rw [splitBody, kindOf_delim]
    simp only [splitLine, hst, Option.map_some, Line.raw, List.length_append, hbreak,
      Nat.add_assoc]
  have hlast : t.getLast? = some cr → eol.text.head? ≠ some lf := by
    intro h
    cases eol with
    | crlf => decide
    | lf => exact absurd h (hcr rfl)
  obtain ⟨ls, l, hlines, hbrk, hflat, htexts⟩ :=
    exists_lines_append (isEnd_eol eol) (eol_ne_nil eol) rest t hlast
  have hother : ∀ m ∈ ls ++ [l], kindOf delim m.text = .other := by
    intro m hm
    refine kindOf_of_not fun hpre => ?_
    rcases htexts m hm with hnil | ⟨k, hk, hkm⟩
    · rw [hnil] at hpre
      exact hne (List.prefix_nil.1 hpre)
    · exact ht k hk (hkm ▸ hpre)
  obtain ⟨k, hrun⟩ := runLines_other parse
    (fun m hm => hother m (List.mem_append_left _ hm)) (l :: lines cr lf rest)
    (pos + delim.length + eol.text.length)
    ⟨true, true, pos + delim.length + eol.text.length, eol.text.length, parts⟩
  have hstep : ∀ (q : ℕ) (st : SplitScan), splitBody parse delim q l st =
      some ({ st with prevEolLen := eol.text.length }, true) := by
    intro q st
    rw [splitBody, hother l (by simp), splitLine, Line.raw, List.length_append, hbrk]
    congr 3
    omega
  have hlen : (ls.flatMap Line.raw).length + l.raw.length = t.length + eol.text.length := by
    rw [← List.length_append, ← List.length_append, ← hflat, List.flatMap_append,
      List.flatMap_singleton]
  have hpos : pos + (⟨delim, eol.text⟩ : Line Latin1).raw.length =
      pos + delim.length + eol.text.length := by
    rw [Line.raw, List.length_append, Nat.add_assoc]
  have hend : pos + delim.length + eol.text.length + (ls.flatMap Line.raw).length +
      l.raw.length = pos + delim.length + eol.text.length + t.length + eol.text.length := by
    omega
  rw [lines_eol hdelim, runLines_of_some hopen, hpos, hlines, hrun, runLines_of_some (hstep _ _),
    hend]

theorem exists_lines_cons {t u : Text} (ht : ∀ c ∈ t, isBreak cr lf c = false) (hne : t ≠ [])
    (hu : ∀ c ∈ u.head?, isBreak cr lf c = true) :
    ∃ k ls, lines cr lf (t ++ u) = ⟨t, k⟩ :: ls := by
  cases u with
  | nil => exact ⟨[], [], by rw [List.append_nil, lines_of_forall hne ht]⟩
  | cons c u =>
    rw [lines_of_ne_nil (by simp), firstLine_append_of_break ht (hu c rfl)]
    exact ⟨_, _, rfl⟩

theorem runLines_close {epilogue : Text} (hdelim : ∀ c ∈ delim, isBreak cr lf c = false)
    (hepilogue : ∀ c ∈ epilogue.head?, isBreak cr lf c = true) {st : SplitScan}
    {parts : List Entity} (hst : st.closed parse pos = some parts) :
    runLines (splitBody parse delim) pos (lines cr lf (delim ++ lit "--" ++ epilogue)) st =
      some { st with inPart := false, sawStart := true, parts := parts } := by
  have hclose : ∀ c ∈ delim ++ lit "--", isBreak cr lf c = false := fun c hc =>
    (List.mem_append.1 hc).elim (hdelim c) (isBreak_dashes c)
  have hne : delim ++ lit "--" ≠ [] := by simp [lit]
  obtain ⟨k, ls, hlines⟩ := exists_lines_cons hclose hne hepilogue
  have hstep : splitBody parse delim pos ⟨delim ++ lit "--", k⟩ st =
      some ({ st with inPart := false, sawStart := true, parts := parts }, false) := by
    rw [splitBody, kindOf_close, splitLine, hst, Option.map_some]
  rw [hlines, runLines_of_stop hstep]

/-- **Every part is found behind its delimiter, and read.** -/
theorem exists_sections {epilogue : Text} (hdelim : ∀ c ∈ delim, isBreak cr lf c = false)
    (hne : delim ≠ []) (hepilogue : ∀ c ∈ epilogue.head?, isBreak cr lf c = true)
    {ps : List Part} (hlines : ∀ p ∈ ps, ∀ l ∈ lines cr lf (p.text eol), ¬delim <+: l.text)
    (hcr : eol = .lf → ∀ p ∈ ps, (p.text eol).getLast? ≠ some cr)
    (hparse : ∀ p ∈ ps, ∀ pos, Holds text pos (p.text eol) →
      ∃ e, parse pos (pos + (p.text eol).length) = some e ∧ Reads text eol p e)
    (h : Holds text pos (Part.sections eol delim ps ++ (delim ++ lit "--" ++ epilogue)))
    {st : SplitScan} {parts : List Entity} (hst : st.closed parse pos = some parts) :
    ∃ st' es, runLines (splitBody parse delim) pos
        (lines cr lf (Part.sections eol delim ps ++ (delim ++ lit "--" ++ epilogue))) st =
        some st' ∧ st'.inPart = false ∧ st'.sawStart = true ∧ st'.parts = parts ++ es ∧
      List.Forall₂ (Reads text eol) ps es := by
  induction ps generalizing pos st parts with
  | nil =>
    exact ⟨_, [], runLines_close hdelim hepilogue hst, rfl, rfl, (List.append_nil _).symm, .nil⟩
  | cons p ps ih =>
    rw [List.forall_mem_cons] at hlines hparse
    set tail := delim ++ lit "--" ++ epilogue with htail
    have hsections : Part.sections eol delim (p :: ps) ++ tail = delim ++ (eol.text ++
        (p.text eol ++ (eol.text ++ (Part.sections eol delim ps ++ tail)))) := by
      rw [Part.sections]
      simp only [List.append_assoc, Part.text]
    rw [hsections] at h ⊢
    have hpart : Holds text (pos + delim.length + eol.text.length)
        (p.text eol ++ (eol.text ++ (Part.sections eol delim ps ++ tail))) := h.right.right
    obtain ⟨e, he, hread⟩ := hparse.1 _ hpart.left
    have hclosed : SplitScan.closed parse
        (pos + delim.length + eol.text.length + (p.text eol).length + eol.text.length)
        ⟨true, true, pos + delim.length + eol.text.length, eol.text.length, parts⟩ =
        some (parts ++ [e]) := by
      rw [SplitScan.closed, if_pos rfl, Nat.add_sub_cancel, Nat.max_eq_right (Nat.le_add_right _ _),
        he, Option.map_some]
    obtain ⟨st', es, hrun, hin, hsaw, hparts, hreads⟩ := ih hlines.2
      (fun heol p hp => hcr heol p (List.mem_cons_of_mem _ hp)) hparse.2 hpart.right.right hclosed
    refine ⟨st', e :: es, ?_, hin, hsaw, ?_, .cons hread hreads⟩
    · rw [runLines_section hdelim hne hlines.1 (fun heol => hcr heol p List.mem_cons_self) _ hst,
        hrun]
    · rw [hparts, List.append_assoc, List.singleton_append]

end Parts

/-! ## The round trip -/

theorem delim_ok (d : Multipart) : ∀ c ∈ d.delim, isBreak cr lf c = false := fun c hc =>
  (List.mem_append.1 hc).elim (isBreak_dashes c) (d.boundary_ok c)

theorem reads_leaf {fields : List Field} {body : Text} (levels : ℕ)
    (h : Holds text pos ((Part.leaf fields body).text eol)) :
    ∃ e, parse text levels pos (pos + ((Part.leaf fields body).text eol).length) = some e ∧
      Reads text eol (.leaf fields body) e := by
  set p := Part.leaf fields body
  have hread := readHeaders_text p h
  obtain ⟨e, e', he, he', hheaders, hstart, hend, hparts⟩ :=
    exists_parse levels (Nat.le_add_right _ _) h.length_le
  obtain rfl := Option.some.inj (hread.symm.trans he)
  have hheld : Holds text (pos + (p.head eol).length) (p.body eol) := h.right
  refine ⟨e', he', .leaf hheaders ?_ fun hctype => hparts ?_⟩
  · rw [Entity.body, hstart, hend]
    refine (hheld.substring_eq ?_).trans (by rw [Part.body])
    rw [Part.text, List.length_append, Nat.add_assoc]
  · obtain ⟨t, ht⟩ := exists_contentType e'.headers
    have hnot := hctype t ht
    rw [hheaders] at ht
    simp only [splitAt, ht, startsWith_self, Option.bind_eq_bind, Option.bind_some]
    rw [if_neg (by rw [decide_eq_true_eq]; exact hnot)]

/-- Read from any place of any text, by as many levels as the part has. -/
theorem reads_parse {levels : ℕ} {p : Part} (h : Nests eol (Kept eol) levels p)
    (hheld : Holds text pos (p.text eol)) :
    ∃ e, parse text levels pos (pos + (p.text eol).length) = some e ∧ Reads text eol p e := by
  induction h generalizing pos with
  | leaf => exact reads_leaf _ hheld
  | @multi n before after d parts epilogue hbefore hepilogue hlines hkept hparts ih =>
    set p := Part.multi before d after parts epilogue
    have hread := readHeaders_text p hheld
    have hsplit : splitAt (p.fields.map Field.header) = some (some d.boundary) :=
      splitAt_field hbefore hkept.1
    have hbody : Holds text (pos + (p.head eol).length) (p.body eol) := hheld.right
    have hend : pos + (p.text eol).length =
        pos + (p.head eol).length + (p.body eol).length := by
      rw [Part.text, List.length_append, Nat.add_assoc]
    have hbody_eq : p.body eol =
        Part.sections eol d.delim parts ++ (d.delim ++ lit "--" ++ epilogue) := by
      rw [Part.body]
    have hne : d.delim ≠ [] := by simp [Multipart.delim, lit]
    have hnone : SplitScan.closed (parse text n) (pos + (p.head eol).length)
        ⟨false, false, 0, 0, []⟩ = some [] := rfl
    obtain ⟨st, es, hrun, hin, hsaw, hes, hreads⟩ := exists_sections (delim_ok d) hne hepilogue
      hlines hkept.2 (fun p hp pos hp' => ih p hp hp') (hbody_eq ▸ hbody) hnone
    have hsplitParts : splitParts text (parse text n) ⟨p.fields.map Field.header,
        pos + (p.head eol).length, pos + (p.text eol).length, none⟩ d.boundary =
        some (some es) := by
      rw [splitParts_eq d.boundary hbody hend, hbody_eq]
      rw [Multipart.delim] at hrun
      rw [Multipart.delim, hrun, Option.bind_eq_bind, Option.bind_some, lastPart,
        if_neg (by simp [hin]), if_pos hsaw, hes, List.nil_append]
    refine ⟨_, parse_of_some hread hsplit hsplitParts, .multi rfl ?_ rfl hreads⟩
    exact hbody.substring_eq hend

/-- `parse` always gives an entity, and of a composed message the parts it was composed of. -/
theorem parseMessage_roundTrip : (∀ text, ∃ e, parseMessage text = some e) ∧
    ∀ eol p, Nests eol (Kept eol) MAX_DEPTH p →
      ∃ e, parseMessage (p.text eol) = some e ∧ Reads (p.text eol) eol p e := by
  refine ⟨exists_parseMessage, fun eol p h => ?_⟩
  obtain ⟨e, he, hread⟩ := reads_parse h (holds_self (p.text eol))
  rw [Nat.zero_add] at he
  exact ⟨e, he, hread⟩

namespace Sample

/-- A text without the delimiter has no line that starts with it. -/
theorem not_prefix_line {delim : Text} (h : ¬delim <:+: s) :
    ∀ l ∈ lines cr lf s, ¬delim <+: l.text := by
  intro l hl hpre
  refine h (hpre.isInfix.trans ?_)
  rw [← flatMap_raw_lines cr lf s]
  obtain ⟨a, b, hab⟩ := List.append_of_mem hl
  exact ⟨a.flatMap Line.raw, l.brk ++ b.flatMap Line.raw, by
    rw [hab, List.flatMap_append, List.flatMap_cons, Line.raw]
    simp only [List.append_assoc]⟩

def multipart (boundary : Text) (h : ∀ c ∈ boundary, isBreak cr lf c = false) : Multipart where
  sub := lit "mixed"
  boundary := boundary
  sub_ok := by decide +kernel
  boundary_ok := h

def field : Field where
  name := lit "X"
  first := lit "1"
  more := [lit " 2"]
  name_ne := by decide
  name_ok := by decide +kernel
  first_ok := by decide +kernel
  first_head := by decide +kernel
  more_ok := by decide +kernel

/-- A part and a multipart in a multipart. -/
def nested : Part :=
  .multi [field] (multipart (lit "B") (by decide +kernel)) []
    [.leaf [field] (lit "a\n"),
      .multi [] (multipart (lit "C;\"") (by decide +kernel)) [field] [.leaf [] (lit "b\r")] []]
    (lit "\r\n")

theorem nested_nests : Nests .crlf (Kept .crlf) MAX_DEPTH nested := by
  refine .multi (by decide +kernel) (by decide +kernel) ?_ ⟨by decide +kernel, nofun⟩ ?_
  · rw [List.forall_mem_cons, List.forall_mem_singleton]
    exact ⟨not_prefix_line (by decide +kernel), not_prefix_line (by decide +kernel)⟩
  · rw [List.forall_mem_cons, List.forall_mem_singleton]
    refine ⟨.leaf, .multi nofun nofun ?_ ⟨by decide +kernel, nofun⟩ ?_⟩
    · rw [List.forall_mem_singleton]
      exact not_prefix_line (by decide +kernel)
    · rw [List.forall_mem_singleton]
      exact .leaf

theorem nested_back : Nests .crlf (Kept .crlf) MAX_DEPTH nested ∧
    ∃ e, parseMessage (nested.text .crlf) = some e ∧ Reads (nested.text .crlf) .crlf nested e :=
  ⟨nested_nests, parseMessage_roundTrip.2 .crlf nested nested_nests⟩

/-- One part in a multipart. -/
def single (boundary body : Text) (h : ∀ c ∈ boundary, isBreak cr lf c = false) : Part :=
  .multi [] (multipart boundary h) [] [.leaf [] body] []

/-- The bodies of the parts that are read. -/
def bodies (text : Text) : Option (List (Option Text)) :=
  (parseMessage text).map fun e => (e.parts.getD []).map (Entity.body text)

theorem bodies_of_reads {eol : Eol} {boundary body : Text}
    {h : ∀ c ∈ boundary, isBreak cr lf c = false} {e : Entity}
    (he : parseMessage ((single boundary body h).text eol) = some e)
    (hread : Reads ((single boundary body h).text eol) eol (single boundary body h) e) :
    bodies ((single boundary body h).text eol) = some [some body] := by
  generalize (single boundary body h).text eol = text at he hread
  cases hread with
  | multi hheaders hbody hparts hreads =>
    cases hreads with
    | cons hpart hnil =>
      cases hnil
      cases hpart with
      | leaf _ hleaf _ => rw [bodies, he, Option.map_some, hparts]; simp [hleaf]

/-- With `'\n'` at the ends of the lines a part that ends in `'\r'` loses it, and at a boundary that
ends in a space the end of the last part is not found. -/
theorem parts_lost :
    (Nests .lf (fun _ _ => True) MAX_DEPTH (single (lit "B") (lit "a\r") (by decide +kernel)) ∧
      ¬∃ e, parseMessage ((single (lit "B") (lit "a\r") (by decide +kernel)).text .lf) = some e ∧
        Reads ((single (lit "B") (lit "a\r") (by decide +kernel)).text .lf) .lf
          (single (lit "B") (lit "a\r") (by decide +kernel)) e) ∧
    Nests .lf (fun _ _ => True) MAX_DEPTH (single (lit "B ") (lit "a") (by decide +kernel)) ∧
      ¬∃ e, parseMessage ((single (lit "B ") (lit "a") (by decide +kernel)).text .lf) = some e ∧
        Reads ((single (lit "B ") (lit "a") (by decide +kernel)).text .lf) .lf
          (single (lit "B ") (lit "a") (by decide +kernel)) e := by
  refine ⟨⟨.multi nofun nofun ?_ trivial ?_, ?_⟩, .multi nofun nofun ?_ trivial ?_, ?_⟩
  · rw [List.forall_mem_singleton]
    exact not_prefix_line (by decide +kernel)
  · rw [List.forall_mem_singleton]
    exact .leaf
  · rintro ⟨e, he, hread⟩
    exact absurd (bodies_of_reads he hread) (by decide +kernel)
  · rw [List.forall_mem_singleton]
    exact not_prefix_line (by decide +kernel)
  · rw [List.forall_mem_singleton]
    exact .leaf
  · rintro ⟨e, he, hread⟩
    exact absurd (bodies_of_reads he hread) (by decide +kernel)

end Sample

end RagLeap.Rag.Mime
