import RagLeap.Foundations.Text

/-!
# The visible text of a page

`_Text` of `core/page_fetch.py` collects the text of a page from the events of the HTML parser. It
keeps one flag for each element it believes open and drops the last of them at any end tag, whatever
its name. `Element` and `openElements` say which elements are open when end tags are matched by
name: an end tag closes the innermost open element of its name with all that was opened inside it.

`exact_of_closes`: the text that is let through is that outside hidden elements, in every stream in
which an end tag inside hidden content closes one element of that content. `exists_not_exact`: after
any other end tag there, a stream can go on so that text leaks or is lost.
-/

namespace RagLeap.PageText

/-! ## The code -/

def SKIP : List Str :=
  ["script", "style", "noscript", "template", "svg", "iframe", "object", "head"].map String.toList

def VOID : List Str :=
  ["br", "hr", "img", "input", "meta", "link", "area", "base", "col", "embed", "source", "track",
    "wbr"].map String.toList

def BLOCK : List Str :=
  ["p", "div", "br", "li", "tr", "ul", "ol", "table", "section", "article", "header", "footer",
    "pre", "blockquote", "h1", "h2", "h3", "h4", "h5", "h6"].map String.toList

/-- Attributes as the HTML parser lists them; one without a value has none. -/
abbrev Attrs : Type := List (Str × Option Str)

/-- `{k: (v or "") for k, v in attrs}.get(name)`: the last attribute of a name counts. -/
def attr? (attrs : Attrs) (name : Str) : Option Str :=
  (attrs.reverse.lookup name).map fun value => value.getD []

/-- `_is_hidden`. -/
def isHidden (unicode : Unicode) (tag : Str) (attrs : Attrs) : Bool :=
  if tag ∈ SKIP then true
  else
    let style := unicode.lower (((attr? attrs "style".toList).getD []).filter (· ≠ ' '))
    (attr? attrs "hidden".toList).isSome ||
      unicode.lower ((attr? attrs "aria-hidden".toList).getD []) == "true".toList ||
      decide ("display:none".toList <:+: style) || decide ("visibility:hidden".toList <:+: style)

/-- What the HTML parser reports. -/
inductive Event
  | startTag (tag : Str) (attrs : Attrs)
  | startEndTag (tag : Str) (attrs : Attrs)
  | endTag (tag : Str)
  | data (text : Str)

/-- The variables of `_Text`; the top of the stack comes first. -/
structure Parser where
  out : List Str
  stack : List Bool
  hidden : ℤ

namespace Parser

def init : Parser := ⟨[], [], 0⟩

/-- A block starts or ends on a line of its own. -/
def newline (p : Parser) (tag : Str) : Parser :=
  if tag ∈ BLOCK then { p with out := p.out ++ [['\n']] } else p

/-- The handler of an event. -/
def step (unicode : Unicode) (p : Parser) : Event → Parser
  | .startTag tag attrs =>
    let p := p.newline tag
    if tag ∈ VOID then p
    else
      let h := isHidden unicode tag attrs
      { p with stack := h :: p.stack, hidden := p.hidden + if h then 1 else 0 }
  | .startEndTag tag _ => p.newline tag
  | .endTag tag =>
    let p := p.newline tag
    if tag ∈ VOID then p
    else
      match p.stack with
      | [] => p
      | h :: stack => { p with stack := stack, hidden := if h then p.hidden - 1 else p.hidden }
  | .data text => if p.hidden = 0 then { p with out := p.out ++ [text] } else p

/-- The parser after a stream of events. -/
def run (unicode : Unicode) (es : List Event) : Parser := es.foldl (step unicode) init

end Parser

/-! ## The elements that are open, by name -/

structure Element where
  name : Str
  hidden : Bool

/-- The open elements after an event, the innermost first. -/
def openAfter (unicode : Unicode) (els : List Element) : Event → List Element
  | .startTag tag attrs => if tag ∈ VOID then els else ⟨tag, isHidden unicode tag attrs⟩ :: els
  | .endTag tag =>
    if tag ∈ els.map Element.name then (els.dropWhile fun e => e.name ≠ tag).tail else els
  | _ => els

def openElements (unicode : Unicode) (es : List Event) : List Element :=
  es.foldl (openAfter unicode) []

/-- None of the elements is hidden or of a skipped kind. -/
def Shown (els : List Element) : Prop := ∀ e ∈ els, e.hidden = false

instance (els : List Element) : Decidable (Shown els) :=
  inferInstanceAs (Decidable (∀ e ∈ els, e.hidden = false))

/-- A piece of text is let through just where none of the open elements is hidden. -/
def Exact (unicode : Unicode) (es : List Event) : Prop :=
  ∀ before text after, es = before ++ .data text :: after →
    ((Parser.run unicode before).step unicode (.data text)).out =
      (Parser.run unicode before).out ++ if Shown (openElements unicode before) then [text] else []

/-- An end tag inside hidden content closes one element of it: it is that of the innermost open
element, or the innermost is the outermost hidden one and the end tag is that of an element around
it. -/
def Closes (els : List Element) : Event → Prop
  | .endTag tag => tag ∉ VOID →
    match els with
    | [] => True
    | e :: rest => Shown (e :: rest) ∨ e.name = tag ∨ tag ∈ rest.map Element.name ∧ Shown rest
  | _ => True

instance (els : List Element) (e : Event) : Decidable (Closes els e) :=
  match e, els with
  | .endTag tag, [] => inferInstanceAs (Decidable (tag ∉ VOID → True))
  | .endTag tag, e :: rest => inferInstanceAs (Decidable (tag ∉ VOID →
      Shown (e :: rest) ∨ e.name = tag ∨ tag ∈ rest.map Element.name ∧ Shown rest))
  | .startTag _ _, _ => instDecidableTrue
  | .startEndTag _ _, _ => instDecidableTrue
  | .data _, _ => instDecidableTrue

/-- The end tags of a stream close what they should inside hidden content. -/
def AllClose (unicode : Unicode) (es : List Event) : Prop :=
  ∀ before e after, es = before ++ e :: after → Closes (openElements unicode before) e

/-! ## What one event does -/

section Steps

variable {unicode : Unicode} {p : Parser} {els : List Element}

@[simp] theorem stack_newline (p : Parser) (tag : Str) : (p.newline tag).stack = p.stack := by
  unfold Parser.newline
  split_ifs <;> rfl

@[simp] theorem hidden_newline (p : Parser) (tag : Str) : (p.newline tag).hidden = p.hidden := by
  unfold Parser.newline
  split_ifs <;> rfl

variable (unicode p) in
theorem step_startTag {tag : Str} (hvoid : tag ∉ VOID) (attrs : Attrs) :
    (p.step unicode (.startTag tag attrs)).stack = isHidden unicode tag attrs :: p.stack ∧
    (p.step unicode (.startTag tag attrs)).hidden =
      p.hidden + if isHidden unicode tag attrs then 1 else 0 := by
  simp only [Parser.step, if_neg hvoid, stack_newline, hidden_newline, and_self]

variable (unicode p) in
theorem step_endTag {tag : Str} (hvoid : tag ∉ VOID) :
    (p.step unicode (.endTag tag)).stack = p.stack.tail ∧
    (p.step unicode (.endTag tag)).hidden =
      if p.stack.head? = some true then p.hidden - 1 else p.hidden := by
  simp only [Parser.step, if_neg hvoid, stack_newline, hidden_newline]
  cases hstack : p.stack with
  | nil => simp [hstack]
  | cons h stack => cases h <;> simp

/-- Void elements, self-closing tags and text leave the flags as they are. -/
theorem step_other {e : Event} (h : ∀ tag, e = .endTag tag → tag ∈ VOID)
    (h' : ∀ tag attrs, e = .startTag tag attrs → tag ∈ VOID) :
    (p.step unicode e).stack = p.stack ∧ (p.step unicode e).hidden = p.hidden := by
  cases e with
  | startTag tag attrs => simp [Parser.step, h' tag attrs rfl]
  | startEndTag tag attrs => simp [Parser.step]
  | endTag tag => simp [Parser.step, h tag rfl]
  | data text =>
    unfold Parser.step
    split_ifs <;> exact ⟨rfl, rfl⟩

theorem openAfter_startTag {tag : Str} (hvoid : tag ∉ VOID) (attrs : Attrs) :
    openAfter unicode els (.startTag tag attrs) = ⟨tag, isHidden unicode tag attrs⟩ :: els :=
  if_neg hvoid

/-- An end tag closes the innermost element if it is that one's. -/
theorem openAfter_endTag_head (e : Element) (els : List Element) :
    openAfter unicode (e :: els) (.endTag e.name) = els := by
  rw [openAfter, if_pos (by simp), List.dropWhile_cons_of_neg (by simp), List.tail_cons]

theorem openAfter_endTag_of_mem {tag : Str} (h : tag ∈ els.map Element.name) (e : Element) :
    openAfter unicode (e :: els) (.endTag tag) =
      ((e :: els).dropWhile fun e => e.name ≠ tag).tail :=
  if_pos (List.mem_cons_of_mem e.name h)

theorem tail_dropWhile_suffix (f : Element → Bool) (e : Element) (els : List Element) :
    ((e :: els).dropWhile f).tail <:+ els := by
  induction els generalizing e with
  | nil =>
    rw [List.dropWhile_cons]
    split_ifs <;> simp
  | cons e' els ih =>
    rw [List.dropWhile_cons]
    split_ifs
    · exact (ih e').trans (List.suffix_cons e' els)
    · exact List.suffix_refl _

variable (unicode) in
/-- An end tag closes some of the innermost elements or none. -/
theorem openAfter_endTag_suffix (tag : Str) (els : List Element) :
    openAfter unicode els (.endTag tag) <:+ els := by
  rw [openAfter]
  split_ifs
  · exact (List.tail_suffix _).trans (List.dropWhile_suffix _)
  · exact List.suffix_refl els

theorem Shown.of_suffix {els els' : List Element} (h : Shown els) (hs : els' <:+ els) :
    Shown els' := fun e he => h e (hs.subset he)

end Steps

/-! ## The parser and the open elements -/

/-- The parser has the flags of the open elements from the innermost to the outermost hidden one,
`inner`; what is below has no flag set on either side. -/
structure Aligned (p : Parser) (els inner rest : List Element) (flags : List Bool) : Prop where
  els_eq : els = inner ++ rest
  stack_eq : p.stack = inner.map Element.hidden ++ flags
  rest_shown : Shown rest
  flags_false : ∀ b ∈ flags, b = false
  outermost : ∀ e ∈ inner.getLast?, e.hidden = true
  count : p.hidden = p.stack.count true
  nonvoid : ∀ e ∈ els, e.name ∉ VOID

section Invariant

variable {unicode : Unicode} {p : Parser} {els inner rest : List Element} {flags : List Bool}

theorem Aligned.hidden_eq_zero_iff (h : Aligned p els inner rest flags) :
    p.hidden = 0 ↔ inner = [] := by
  rw [h.count, Int.natCast_eq_zero, List.count_eq_zero, h.stack_eq]
  constructor
  · intro hnot
    by_contra hne
    have hlast := h.outermost _ (List.getLast?_eq_some_getLast hne)
    have hmem := List.mem_map_of_mem (f := Element.hidden) (List.getLast_mem hne)
    exact hnot (List.mem_append_left _ (hlast ▸ hmem))
  · rintro rfl htrue
    exact Bool.noConfusion (h.flags_false true htrue)

theorem Aligned.shown_iff (h : Aligned p els inner rest flags) : Shown els ↔ inner = [] := by
  rw [h.els_eq]
  constructor
  · intro hshown
    by_contra hne
    have hlast := h.outermost _ (List.getLast?_eq_some_getLast hne)
    have hmem := List.mem_append_left rest (List.getLast_mem hne)
    exact Bool.noConfusion (hlast.symm.trans (hshown _ hmem))
  · rintro rfl
    exact h.rest_shown

/-- A piece of text is treated as it should just if the parser counts a hidden element where one is
open. -/
theorem step_data_iff (p : Parser) (els : List Element) (text : Str) :
    (p.step unicode (.data text)).out = (p.out ++ if Shown els then [text] else []) ↔
      (p.hidden = 0 ↔ Shown els) := by
  rw [Parser.step]
  by_cases hhidden : p.hidden = 0 <;> by_cases hshown : Shown els <;> simp [hhidden, hshown]

theorem Aligned.step_data (h : Aligned p els inner rest flags) (text : Str) :
    (p.step unicode (.data text)).out = p.out ++ if Shown els then [text] else [] :=
  (step_data_iff p els text).2 (h.hidden_eq_zero_iff.trans h.shown_iff.symm)

/-- A start tag opens an element on both sides. -/
theorem Aligned.startTag (h : Aligned p els inner rest flags) {tag : Str} (hvoid : tag ∉ VOID)
    (attrs : Attrs) : ∃ inner' rest' flags', Aligned (p.step unicode (.startTag tag attrs))
      (⟨tag, isHidden unicode tag attrs⟩ :: els) inner' rest' flags' := by
  obtain ⟨hstack, hhidden⟩ := step_startTag unicode p hvoid attrs
  have hcount : (p.step unicode (.startTag tag attrs)).hidden =
      (p.step unicode (.startTag tag attrs)).stack.count true := by
    rw [hhidden, hstack, h.count, List.count_cons]
    cases isHidden unicode tag attrs <;> simp
  have hnonvoid : ∀ e ∈ (⟨tag, isHidden unicode tag attrs⟩ : Element) :: els, e.name ∉ VOID := by
    intro e he
    rcases List.mem_cons.1 he with rfl | he
    · exact hvoid
    · exact h.nonvoid e he
  by_cases hnew : inner = [] ∧ isHidden unicode tag attrs = false
  · obtain ⟨rfl, hfalse⟩ := hnew
    rw [hfalse] at hstack hnonvoid ⊢
    refine ⟨[], ⟨tag, false⟩ :: rest, false :: flags, ?_, ?_, ?_, ?_, ?_, hcount, hnonvoid⟩
    · rw [h.els_eq, List.nil_append, List.nil_append]
    · rw [hstack, h.stack_eq]
      rfl
    · intro e he
      rcases List.mem_cons.1 he with rfl | he
      · rfl
      · exact h.rest_shown e he
    · intro b hb
      rcases List.mem_cons.1 hb with rfl | hb
      · rfl
      · exact h.flags_false b hb
    · exact nofun
  · refine ⟨⟨tag, isHidden unicode tag attrs⟩ :: inner, rest, flags, ?_, ?_, h.rest_shown,
      h.flags_false, ?_, hcount, hnonvoid⟩
    · rw [h.els_eq, List.cons_append]
    · rw [hstack, h.stack_eq, List.map_cons, List.cons_append]
    · intro e he
      cases inner with
      | nil =>
        obtain rfl : (⟨tag, isHidden unicode tag attrs⟩ : Element) = e := by simpa using he
        simpa using hnew
      | cons e' inner => exact h.outermost e (by simpa using he)

theorem count_tail {stack : List Bool} {hidden : ℤ} (h : hidden = stack.count true) :
    (if stack.head? = some true then hidden - 1 else hidden) = stack.tail.count true := by
  rw [h]
  cases stack with
  | nil => rfl
  | cons b stack => cases b <;> simp

/-- An end tag that closes one element of the hidden content, or none where nothing is hidden. -/
theorem Aligned.endTag (h : Aligned p els inner rest flags) {tag : Str} (hvoid : tag ∉ VOID)
    (hcloses : Closes els (.endTag tag)) : ∃ inner' rest' flags',
      Aligned (p.step unicode (.endTag tag)) (openAfter unicode els (.endTag tag))
        inner' rest' flags' := by
  obtain ⟨hstack, hhidden⟩ := step_endTag unicode p hvoid
  have hcount := hhidden.trans (count_tail h.count)
  rw [← hstack] at hcount
  have hsuffix := openAfter_endTag_suffix unicode tag els
  have hnonvoid : ∀ e ∈ openAfter unicode els (.endTag tag), e.name ∉ VOID :=
    fun e he => h.nonvoid e (hsuffix.subset he)
  cases inner with
  | nil =>
    refine ⟨[], _, flags.tail, rfl, ?_, ?_, ?_, nofun, hcount, hnonvoid⟩
    · rw [hstack, h.stack_eq]
      rfl
    · exact (h.shown_iff.2 rfl).of_suffix hsuffix
    · exact fun b hb => h.flags_false b (List.mem_of_mem_tail hb)
  | cons e inner =>
    have hels : els = e :: (inner ++ rest) := h.els_eq
    have hpop : (p.step unicode (.endTag tag)).stack = inner.map Element.hidden ++ flags := by
      rw [hstack, h.stack_eq]
      rfl
    have hshown : ¬ Shown els := fun hs => List.cons_ne_nil _ _ (h.shown_iff.1 hs)
    have hcase := hcloses hvoid
    rw [hels] at hcase hshown
    rcases hcase with hs | rfl | ⟨hmem, hs⟩
    · exact absurd hs hshown
    · refine ⟨inner, rest, flags, ?_, hpop, h.rest_shown, h.flags_false, fun e' he' => ?_, hcount,
        hnonvoid⟩
      · rw [hels, openAfter_endTag_head]
      · refine h.outermost e' ?_
        cases inner with
        | nil => exact nomatch he'
        | cons e'' inner => simpa using he'
    · -- `e` is the outermost hidden element, and what is closed with it is below
      have hinner : inner = [] := by
        by_contra hne
        have hlast := h.outermost (inner.getLast hne) (by
          rw [List.getLast?_cons, List.getLast?_eq_some_getLast hne]
          rfl)
        have hfalse := hs _ (List.mem_append_left rest (List.getLast_mem hne))
        exact Bool.noConfusion (hlast.symm.trans hfalse)
      subst hinner
      have hbelow : openAfter unicode els (.endTag tag) <:+ rest := by
        rw [hels, openAfter_endTag_of_mem hmem]
        exact tail_dropWhile_suffix _ e rest
      exact ⟨[], _, flags, rfl, hpop, h.rest_shown.of_suffix hbelow, h.flags_false, nofun, hcount,
        hnonvoid⟩

theorem Aligned.step (h : Aligned p els inner rest flags) {e : Event} (hcloses : Closes els e) :
    ∃ inner' rest' flags', Aligned (p.step unicode e) (openAfter unicode els e)
      inner' rest' flags' := by
  have hstay : (p.step unicode e).stack = p.stack ∧ (p.step unicode e).hidden = p.hidden →
      openAfter unicode els e = els → ∃ inner' rest' flags',
        Aligned (p.step unicode e) (openAfter unicode els e) inner' rest' flags' := by
    rintro ⟨hstack, hhidden⟩ hels
    rw [hels]
    refine ⟨inner, rest, flags, h.els_eq, hstack ▸ h.stack_eq, h.rest_shown, h.flags_false,
      h.outermost, ?_, h.nonvoid⟩
    rw [hhidden, hstack, h.count]
  cases e with
  | startTag tag attrs =>
    by_cases hvoid : tag ∈ VOID
    · exact hstay (step_other nofun (by rintro _ _ ⟨⟩; exact hvoid)) (if_pos hvoid)
    · rw [openAfter_startTag hvoid]
      exact h.startTag hvoid attrs
  | startEndTag tag attrs => exact hstay (step_other nofun nofun) rfl
  | endTag tag =>
    by_cases hvoid : tag ∈ VOID
    · refine hstay (step_other (by rintro _ ⟨⟩; exact hvoid) nofun) (if_neg fun hmem => ?_)
      obtain ⟨e, he, rfl⟩ := List.mem_map.1 hmem
      exact h.nonvoid e he hvoid
    · exact h.endTag hvoid hcloses
  | data text => exact hstay (step_other nofun nofun) rfl

end Invariant

/-! ## A whole stream -/

section Run

variable {unicode : Unicode}

theorem run_append (es es' : List Event) :
    Parser.run unicode (es ++ es') = es'.foldl (Parser.step unicode) (Parser.run unicode es) :=
  List.foldl_append

theorem openElements_append (es es' : List Event) :
    openElements unicode (es ++ es') = es'.foldl (openAfter unicode) (openElements unicode es) :=
  List.foldl_append

theorem AllClose.of_append {es es' : List Event} (h : AllClose unicode (es ++ es')) :
    AllClose unicode es := fun before e after heq =>
  h before e (after ++ es') (by rw [heq, List.append_assoc, List.cons_append])

/-- In a stream whose end tags close what they should, the parser follows the open elements. -/
theorem aligned_run {es : List Event} (h : AllClose unicode es) : ∃ inner rest flags,
    Aligned (Parser.run unicode es) (openElements unicode es) inner rest flags := by
  induction es using List.reverseRecOn with
  | nil => exact ⟨[], [], [], rfl, rfl, nofun, nofun, nofun, rfl, nofun⟩
  | append_singleton es e ih =>
    obtain ⟨inner, rest, flags, haligned⟩ := ih h.of_append
    rw [run_append, openElements_append]
    exact haligned.step (h es e [] rfl)

/-- **Hidden text is held back, and other text is not**, in every stream in which each end tag
inside hidden content closes one element of it. -/
theorem exact_of_closes {es : List Event} (h : AllClose unicode es) : Exact unicode es := by
  rintro before text after rfl
  obtain ⟨inner, rest, flags, haligned⟩ := aligned_run h.of_append
  exact haligned.step_data text

/-- The events close what they should, with `els` open before them. -/
def closesFrom (unicode : Unicode) (els : List Element) : List Event → Bool
  | [] => true
  | e :: es => decide (Closes els e) && closesFrom unicode (openAfter unicode els e) es

theorem closes_of_closesFrom {els : List Element} {es : List Event}
    (h : closesFrom unicode els es = true) {before after : List Event} {e : Event}
    (heq : es = before ++ e :: after) : Closes (before.foldl (openAfter unicode) els) e := by
  induction es generalizing els before with
  | nil => simp at heq
  | cons e' es ih =>
    rw [closesFrom, Bool.and_eq_true, decide_eq_true_eq] at h
    cases before with
    | nil =>
      obtain ⟨rfl, rfl⟩ := List.cons.inj heq
      exact h.1
    | cons b before =>
      obtain ⟨rfl, htail⟩ := List.cons.inj heq
      exact ih h.2 htail

theorem allClose_of_closesFrom {es : List Event} (h : closesFrom unicode [] es = true) :
    AllClose unicode es := fun _ _ _ heq => closes_of_closesFrom h heq

/-! ### Other end tags -/

/-- Closing the innermost elements one after another. -/
theorem foldl_closeAll (els rest : List Element) :
    (els.map fun e => Event.endTag e.name).foldl (openAfter unicode) (els ++ rest) = rest := by
  induction els with
  | nil => rfl
  | cons e els ih =>
    rw [List.map_cons, List.foldl_cons, List.cons_append, openAfter_endTag_head, ih]

variable (unicode) in
/-- The flags after end tags of these elements. -/
theorem foldl_endTags (els : List Element) (hvoid : ∀ e ∈ els, e.name ∉ VOID) (p : Parser)
    (hcount : p.hidden = p.stack.count true) :
    let q := (els.map fun e => Event.endTag e.name).foldl (Parser.step unicode) p
    q.stack = p.stack.drop els.length ∧ q.hidden = q.stack.count true := by
  induction els generalizing p with
  | nil => exact ⟨rfl, hcount⟩
  | cons e els ih =>
    obtain ⟨hstack, hhidden⟩ :=
      step_endTag unicode p (hvoid e List.mem_cons_self)
    have hnext := hhidden.trans (count_tail hcount)
    rw [← hstack] at hnext
    obtain ⟨hq, hqcount⟩ := ih (fun e' he' => hvoid e' (List.mem_cons_of_mem e he')) _ hnext
    refine ⟨?_, hqcount⟩
    rw [List.map_cons, List.foldl_cons, hq, hstack, ← List.drop_one, List.drop_drop,
      List.length_cons, Nat.add_comm]

/-- After an end tag, the elements `els` are closed by their end tags; then text is treated wrongly
if the flags and the elements that remain disagree. -/
theorem not_exact_of_closers {es : List Event} {tag : Str} {els rest : List Element}
    {flags : List Bool} (hels : openElements unicode (es ++ [.endTag tag]) = els ++ rest)
    (hvoid : ∀ e ∈ els, e.name ∉ VOID)
    (hstack : (Parser.run unicode (es ++ [.endTag tag])).stack = flags)
    (hcount : (Parser.run unicode (es ++ [.endTag tag])).hidden = flags.count true)
    (hwrong : ¬ (true ∉ flags.drop els.length ↔ Shown rest)) :
    ∃ more, ¬ Exact unicode (es ++ .endTag tag :: more) := by
  refine ⟨(els.map fun e => Event.endTag e.name) ++ [.data []], fun hexact => hwrong ?_⟩
  have hat := hexact (es ++ [.endTag tag] ++ els.map fun e => Event.endTag e.name) [] [] (by simp)
  rw [step_data_iff, openElements_append, hels, foldl_closeAll, run_append] at hat
  obtain ⟨hq, hqcount⟩ := foldl_endTags unicode els hvoid _ (hcount.trans (by rw [hstack]))
  rw [hqcount, hq, hstack, Int.natCast_eq_zero, List.count_eq_zero] at hat
  exact hat

theorem mem_drop_flags {front : List Element} {last : Element} (h : last.hidden = true)
    (flags : List Bool) {n : ℕ} (hn : n ≤ front.length) :
    true ∈ ((front ++ [last]).map Element.hidden ++ flags).drop n := by
  rw [List.map_append, List.append_assoc, List.drop_append_of_le_length (by simpa using hn)]
  simp [h]

/-- Any other end tag inside hidden content lets a stream go on so that text leaks or is lost. -/
theorem exists_not_exact {es : List Event} (h : AllClose unicode es) {tag : Str}
    (hbad : ¬ Closes (openElements unicode es) (.endTag tag)) :
    ∃ more, ¬ Exact unicode (es ++ .endTag tag :: more) := by
  obtain ⟨inner, rest, flags, haligned⟩ := aligned_run h
  have hvoid : tag ∉ VOID := fun hmem => hbad fun hnot => absurd hmem hnot
  obtain ⟨hstack, hhidden⟩ :=
    step_endTag unicode (Parser.run unicode es) hvoid
  have hcount := hhidden.trans (count_tail haligned.count)
  cases inner with
  | nil =>
    refine absurd (fun _ => ?_) hbad
    cases hels : openElements unicode es with
    | nil => trivial
    | cons e els => exact .inl (hels ▸ haligned.shown_iff.2 rfl)
  | cons e inner =>
    have hels : openElements unicode es = e :: (inner ++ rest) := haligned.els_eq
    have hpop : (Parser.run unicode es).stack.tail = inner.map Element.hidden ++ flags := by
      rw [haligned.stack_eq]
      rfl
    rw [hpop] at hstack hcount
    have hrun : Parser.run unicode (es ++ [.endTag tag]) =
        (Parser.run unicode es).step unicode (.endTag tag) := run_append es _
    have hopen : openElements unicode (es ++ [.endTag tag]) =
        openAfter unicode (e :: (inner ++ rest)) (.endTag tag) := by
      rw [openElements_append, hels]
      rfl
    have hnonvoid : ∀ e' ∈ e :: (inner ++ rest), e'.name ∉ VOID := hels ▸ haligned.nonvoid
    have hlast : ∀ hne : inner ≠ [], (inner.getLast hne).hidden = true := fun hne =>
      haligned.outermost _ (by rw [List.getLast?_cons, List.getLast?_eq_some_getLast hne]; rfl)
    have hbad' := hbad
    simp only [Closes, hels, Classical.not_imp] at hbad'
    obtain ⟨hname, hbelow⟩ := not_or.1 (not_or.1 hbad'.2).2
    by_cases hmem : tag ∈ (inner ++ rest).map Element.name
    · -- more than one element of the hidden content is closed, by one flag
      have hne : inner ≠ [] := by
        rintro rfl
        exact hbelow ⟨hmem, haligned.rest_shown⟩
      have hclosed : openElements unicode (es ++ [.endTag tag]) =
          ((inner ++ rest).dropWhile fun e => e.name ≠ tag).tail := by
        rw [hopen, openAfter_endTag_of_mem hmem,
          List.dropWhile_cons_of_pos (by simpa using hname)]
      rw [List.dropWhile_eq_drop_findIdx_not, List.tail_drop, List.drop_append] at hclosed
      obtain ⟨front, last, rfl⟩ : ∃ front last, inner = front ++ [last] :=
        ⟨_, _, (List.dropLast_append_getLast hne).symm⟩
      have htrue : last.hidden = true := by simpa using hlast hne
      refine not_exact_of_closers hclosed (fun e' he' => ?_) (hrun ▸ hstack) (hrun ▸ hcount)
        fun hiff => ?_
      · exact hnonvoid e' (List.mem_cons_of_mem e
          (List.mem_append_left rest (List.mem_of_mem_drop he')))
      · refine hiff.2 (haligned.rest_shown.of_suffix (List.drop_suffix _ rest)) ?_
        refine mem_drop_flags htrue flags ?_
        simp only [List.length_drop, List.length_append, List.length_singleton]
        omega
    · -- no element is closed, by one flag
      obtain ⟨front, last, hsplit⟩ : ∃ front last, e :: inner = front ++ [last] :=
        ⟨_, _, (List.dropLast_append_getLast (List.cons_ne_nil e inner)).symm⟩
      have hclosed : openElements unicode (es ++ [.endTag tag]) = front ++ last :: rest := by
        rw [hopen, openAfter, if_neg (by simpa [Ne.symm hname] using hmem), ← List.cons_append,
          hsplit, List.append_assoc, List.singleton_append]
      have hlen : front.length = inner.length := by
        simpa using (congrArg List.length hsplit).symm
      refine not_exact_of_closers hclosed (fun e' he' => ?_) (hrun ▸ hstack) (hrun ▸ hcount)
        fun hiff => ?_
      · rw [← List.cons_append, hsplit] at hnonvoid
        exact hnonvoid e' (List.mem_append_left rest (List.mem_append_left _ he'))
      · have hall : true ∉ (inner.map Element.hidden ++ flags).drop front.length := by
          rw [List.drop_left' (by simp [hlen])]
          exact fun htrue => Bool.noConfusion (haligned.flags_false true htrue)
        have htrue : last.hidden = true := haligned.outermost last (by rw [hsplit]; simp)
        exact Bool.noConfusion (htrue.symm.trans (hiff.1 hall _ List.mem_cons_self))

end Run

/-! ## A hidden notice -/

namespace Sample

def notice : Event := .startTag "div".toList [("hidden".toList, none)]

/-- A hidden notice with an element inside, and text after it. -/
def nested : List Event :=
  [notice, .data "secret".toList, .startTag "b".toList [], .data "more".toList,
    .endTag "b".toList, .endTag "div".toList, .data "news".toList]

theorem exact_of_closes_nested : Exact .ascii nested :=
  exact_of_closes (allClose_of_closesFrom (by decide))

/-- A hidden notice with an end tag of no open element inside. -/
def stray : List Event := [notice, .endTag "p".toList, .data "secret".toList]

theorem stray_end_tag_leaks : ¬ Exact .ascii stray := fun h => by
  have hout := h [notice, .endTag "p".toList] "secret".toList [] rfl
  revert hout
  decide

end Sample

end RagLeap.PageText
