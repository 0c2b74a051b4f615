import Mathlib.Data.List.Infix
import RagLeap.Foundations.Text

/-!
# Fenced text

A prompt is put together from a program's own text and text from elsewhere, which is to stay
between the tags the program sets around it. In a `Marked` text each character says whose it is,
and `OnlyOurs p m` says that the spellings `p` of a tag occur in `m` only where all of it is the
program's own. A character that no spelling contains cuts a text into two that can be looked at
separately (`onlyOurs_cut`).

`Defuses` is about replacing tags: a match begins with `<`, and a text of the same length that
begins with `[` stands for it. What such a replacement does to a tag depends on whether the tag is
matched where it stands: it disappears (`Defuses.not_isInfix`) or is left alone
(`Defuses.isInfix_take_iff`).
-/

namespace RagLeap

/-! ## Marked text -/

/-- A text, each character with whether it is the program's own. -/
abbrev Marked : Type := List (Char × Bool)

/-- The program's own text. -/
def ours (s : Str) : Marked := s.map fun c => (c, true)

/-- Text from elsewhere. -/
def theirs (s : Str) : Marked := s.map fun c => (c, false)

namespace Marked

def text (m : Marked) : Str := m.map Prod.fst

@[simp] theorem text_append (m m' : Marked) : (m ++ m').text = m.text ++ m'.text :=
  List.map_append

@[simp] theorem text_ours (s : Str) : (ours s).text = s := by
  simp [text, ours, Function.comp_def]

@[simp] theorem text_theirs (s : Str) : (theirs s).text = s := by
  simp [text, theirs, Function.comp_def]

@[simp] theorem text_eq_nil {m : Marked} : m.text = [] ↔ m = [] := List.map_eq_nil_iff

@[simp] theorem text_nil : text [] = [] := rfl

@[simp] theorem text_cons (x : Char × Bool) (m : Marked) : text (x :: m) = x.1 :: m.text := rfl

/-- A text, or the program's own one instead of an empty text. -/
def orText (m : Marked) (s : Str) : Marked := if m = [] then ours s else m

theorem text_orText (m : Marked) (s : Str) :
    (orText m s).text = if m.text = [] then s else m.text := by
  simp only [orText, text_eq_nil]
  split
  · exact text_ours s
  · rfl

/-- Lines joined by line breaks of the program. -/
def lines (ms : List Marked) : Marked := [('\n', true)].intercalate ms

theorem text_lines (ms : List Marked) : (lines ms).text = ['\n'].intercalate (ms.map text) := by
  unfold lines
  induction ms with
  | nil => rfl
  | cons m ms ih =>
    cases ms with
    | nil => simp
    | cons m' ms =>
      rw [List.intercalate_cons_cons, List.map_cons, List.map_cons, List.intercalate_cons_cons,
        text_append, text_append, ih]
      rfl

end Marked

/-- The items that are printed, numbered from `i` on, when `used` characters are printed already.
An item is printed whole as long as the cap on all of them allows it; `length` is what it takes
whole and otherwise. -/
def printed {σ : Type} (skip : σ → Prop) [DecidablePred skip] (length : ℕ → σ → Bool → ℕ)
    (cap : ℤ) : ℕ → ℕ → List σ → List (ℕ × σ × Bool)
  | _, _, [] => []
  | i, used, s :: l =>
    if skip s then printed skip length cap (i + 1) used l
    else
      let whole := decide (((used + length i s true : ℕ) : ℤ) ≤ cap)
      (i, s, whole) :: printed skip length cap (i + 1) (used + length i s whole) l

theorem mem_of_mem_printed {σ : Type} {skip : σ → Prop} [DecidablePred skip]
    {length : ℕ → σ → Bool → ℕ} {cap : ℤ} {i used : ℕ} {l : List σ} {x : ℕ × σ × Bool}
    (hx : x ∈ printed skip length cap i used l) : x.2.1 ∈ l := by
  induction l generalizing i used with
  | nil => cases hx
  | cons s l ih =>
    rw [printed] at hx
    split at hx
    · exact List.mem_cons_of_mem _ (ih hx)
    · rcases List.mem_cons.1 hx with rfl | hx
      · exact List.mem_cons_self
      · exact List.mem_cons_of_mem _ (ih hx)

/-- The spellings `p` occur only in the program's own text. -/
def OnlyOurs (p : Str → Prop) (m : Marked) : Prop :=
  ∀ w : Marked, w <:+: m → p w.text → ∀ x ∈ w, x.2 = true

/-- No spelling of `p` occurs in a text. -/
def Lacks (p : Str → Prop) (s : Str) : Prop := ∀ w, w <:+: s → ¬ p w

/-- No spelling of `p` contains the character, so that it can stand between two sections. -/
def Cuts (p : Str → Prop) (c : Char) : Prop := ∀ w, p w → c ∉ w

/-- An infix of two texts around a character lies in one of them or contains the character. -/
theorem isInfix_append_cons {α : Type} {w a b : List α} {c : α} (h : w <:+: a ++ c :: b) :
    w <:+: a ∨ w <:+: b ∨ c ∈ w := by
  obtain ⟨s, t, h⟩ := h
  rcases List.append_eq_append_iff.1 h with ⟨as, rfl, has⟩ | ⟨bs, hbs, hct⟩
  · exact .inl ⟨s, as, rfl⟩
  · rcases bs with _ | ⟨d, bs⟩
    · exact .inl ⟨s, [], by simpa using hbs⟩
    · obtain ⟨rfl, hb⟩ := List.cons.inj hct
      rcases List.append_eq_append_iff.1 hbs with ⟨cs, rfl, hw⟩ | ⟨cs, rfl, hw⟩
      · exact .inr (.inr (by rw [hw]; exact List.mem_append_right _ List.mem_cons_self))
      · rcases cs with _ | ⟨e, cs⟩
        · rw [List.nil_append] at hw
          exact .inr (.inr (hw ▸ List.mem_cons_self))
        · obtain ⟨-, hbw⟩ := List.cons.inj hw
          exact .inr (.inl ⟨cs, t, by rw [hb, hbw]; rfl⟩)

section OnlyOurs

variable {p : Str → Prop} {m m' : Marked} {s : Str} {c d : Char}

theorem onlyOurs_ours (p : Str → Prop) (s : Str) : OnlyOurs p (ours s) := by
  intro w hw _ x hx
  obtain ⟨c, -, rfl⟩ := List.mem_map.1 (hw.subset hx)
  rfl

/-- A cutting character of the program. -/
theorem onlyOurs_cut (hc : Cuts p c) :
    OnlyOurs p (m ++ (c, true) :: m') ↔ OnlyOurs p m ∧ OnlyOurs p m' := by
  constructor
  · intro h
    refine ⟨fun w hw => h w ?_, fun w hw => h w ?_⟩
    · exact hw.trans (List.prefix_append _ _).isInfix
    · exact hw.trans ((List.suffix_cons _ _).trans (List.suffix_append _ _)).isInfix
  · rintro ⟨h, h'⟩ w hw hp
    rcases isInfix_append_cons hw with hw | hw | hw
    · exact h w hw hp
    · exact h' w hw hp
    · exact absurd (List.mem_map_of_mem (f := Prod.fst) hw) (hc _ hp)

/-- A text that begins with a cutting character of the program. -/
theorem onlyOurs_append (hm : m'.head? = some (c, true)) (hc : Cuts p c) :
    OnlyOurs p (m ++ m') ↔ OnlyOurs p m ∧ OnlyOurs p m' := by
  obtain ⟨m'', rfl⟩ := List.head?_eq_some_iff.1 hm
  have hm' : OnlyOurs p ([] ++ (c, true) :: m'') ↔ OnlyOurs p [] ∧ OnlyOurs p m'' :=
    onlyOurs_cut hc
  rw [onlyOurs_cut hc, ← List.nil_append ((c, true) :: m''), hm']
  exact and_congr_right fun _ => (and_iff_right (onlyOurs_ours p [])).symm

/-- The program's own text after a section, up to its end. -/
theorem onlyOurs_end (hs : s.head? = some c) (hc : Cuts p c) :
    OnlyOurs p (m ++ ours s) ↔ OnlyOurs p m := by
  obtain ⟨s, rfl⟩ := List.head?_eq_some_iff.1 hs
  rw [show m ++ ours (c :: s) = m ++ (c, true) :: ours s from rfl, onlyOurs_cut hc]
  exact and_iff_left (onlyOurs_ours p s)

/-- The program's own text before a section. -/
theorem onlyOurs_start (hs : s.getLast? = some c) (hc : Cuts p c) :
    OnlyOurs p (ours s ++ m) ↔ OnlyOurs p m := by
  obtain ⟨s, rfl⟩ := List.getLast?_eq_some_iff.1 hs
  rw [show ours (s ++ [c]) ++ m = ours s ++ (c, true) :: m by simp [ours], onlyOurs_cut hc]
  exact and_iff_right (onlyOurs_ours p s)

/-- The program's own text between two sections. -/
theorem onlyOurs_between (hs : s.head? = some c) (hs' : s.getLast? = some d) (hc : Cuts p c)
    (hd : Cuts p d) : OnlyOurs p (m ++ ours s ++ m') ↔ OnlyOurs p m ∧ OnlyOurs p m' := by
  obtain ⟨s, rfl⟩ := List.head?_eq_some_iff.1 hs
  rw [show m ++ ours (c :: s) ++ m' = m ++ (c, true) :: (ours s ++ m') by simp [ours],
    onlyOurs_cut hc]
  refine and_congr_right fun _ => ?_
  cases s with
  | nil => rfl
  | cons e s => exact onlyOurs_start (by simpa using hs') hd

theorem onlyOurs_theirs (hp : ¬ p []) : OnlyOurs p (theirs s) ↔ Lacks p s := by
  constructor
  · intro h w hw hpw
    have hin : theirs w <:+: theirs s := hw.map _
    have hall := h _ hin (by rwa [Marked.text_theirs])
    rcases w with _ | ⟨c, w⟩
    · exact hp hpw
    · exact absurd (hall (c, false) List.mem_cons_self) (by simp)
  · intro h w hw hpw
    have hin : w.text <:+: (theirs s).text := hw.map Prod.fst
    exact absurd hpw (h _ (by rwa [Marked.text_theirs] at hin))

theorem onlyOurs_orText : OnlyOurs p (Marked.orText m s) ↔ OnlyOurs p m := by
  unfold Marked.orText
  split
  · rename_i hm
    exact iff_of_true (onlyOurs_ours p s) (hm ▸ onlyOurs_ours p [])
  · rfl

/-- Lines are looked at one by one. -/
theorem onlyOurs_lines {ms : List Marked} (hp : Cuts p '\n') :
    OnlyOurs p (Marked.lines ms) ↔ ∀ m ∈ ms, OnlyOurs p m := by
  unfold Marked.lines
  induction ms with
  | nil => exact iff_of_true (onlyOurs_ours p []) (by simp)
  | cons m ms ih =>
    cases ms with
    | nil => simp
    | cons m' ms =>
      rw [List.intercalate_cons_cons, List.forall_mem_cons, ← ih, List.append_assoc]
      exact onlyOurs_cut hp

end OnlyOurs

/-! ## Defusing tags -/

/-- A replacement for tags: a match is `<` and further characters, none of them `<`, and a text of
the same length stands for it that begins with `[` and contains no `<`. -/
structure Defuses (m : Str → Option (ℕ × Str)) : Prop where
  tag : ∀ {s n new}, m s = some (n, new) → ∃ x y s', s = '<' :: (x ++ s') ∧ new = '[' :: y ∧
    n = x.length + 1 ∧ y.length = x.length ∧ '<' ∉ x ∧ '<' ∉ y

namespace Str

theorem subFrom_drop (m : Str → Option (ℕ × Str)) (k : ℕ) (s : Str) :
    subFrom m k s = subFrom m 0 (s.drop k) := by
  induction s generalizing k with
  | nil => cases k <;> rfl
  | cons c s ih =>
    cases k with
    | zero => rfl
    | succ k => exact ih k

theorem replaceFrom_eq_subFrom (old new : Str) (k : ℕ) (s : Str) :
    replaceFrom old new k s =
      subFrom (fun t => if old <+: t then some (old.length, new) else none) k s := by
  induction s generalizing k with
  | nil => cases k <;> rfl
  | cons c s ih =>
    cases k with
    | succ k => exact ih k
    | zero =>
      rw [replaceFrom, subFrom]
      split
      · simp only [ih]
      · simp only [ih]

end Str

/-- Replacing a tag's text by the same text with `[` in front. -/
theorem defuses_replace {o : Str} (ho : '<' ∉ o) :
    Defuses fun t => if '<' :: o <+: t then some (('<' :: o).length, '[' :: o) else none where
  tag := by
    intro s n new h
    split at h
    · rename_i hs
      obtain ⟨s', rfl⟩ := hs
      cases h
      exact ⟨o, o, s', rfl, rfl, rfl, rfl, ho, ho⟩
    · cases h

/-- A text that is no spelling of the tag, nor begins with one, is none where it stands. -/
theorem defuses_replace_keeps {o v s new : Str} {n : ℕ} (hov : ¬ o <+: v) (hvo : ¬ v <+: o)
    (hv : v <+: s) : (if '<' :: o <+: '<' :: s then some (n, new) else none) = none := by
  refine if_neg fun h => ?_
  rcases List.prefix_or_prefix_of_prefix (List.cons_prefix_cons.1 h).2 hv with h | h
  · exact hov h
  · exact hvo h

/-- An infix does not begin where its first character does not occur. -/
theorem cons_isInfix_append_iff {α : Type} {a b v : List α} {c : α} (hc : c ∉ a) :
    c :: v <:+: a ++ b ↔ c :: v <:+: b := by
  induction a with
  | nil => rfl
  | cons d a ih =>
    rw [List.mem_cons, not_or] at hc
    rw [List.cons_append, List.infix_cons_iff, ih hc.2, List.cons_prefix_cons]
    exact or_iff_right fun h => hc.1 h.1

namespace Defuses

open Str

variable {m : Str → Option (ℕ × Str)} (h : Defuses m) {s v : Str} {n : ℕ}

include h

/-- A text and what becomes of it, match by match. -/
theorem induct {P : Str → Str → Prop} (nil : P [] [])
    (keep : ∀ c s, m (c :: s) = none → P s (subFrom m 0 s) → P (c :: s) (c :: subFrom m 0 s))
    (swap : ∀ x y s, m ('<' :: (x ++ s)) ≠ none → '<' ∉ x → '<' ∉ y → y.length = x.length →
      P s (subFrom m 0 s) → P ('<' :: (x ++ s)) ('[' :: (y ++ subFrom m 0 s)))
    (s : Str) : P s (subFrom m 0 s) := by
  induction hk : s.length using Nat.strong_induction_on generalizing s with
  | _ k ih =>
    subst hk
    cases s with
    | nil => exact nil
    | cons c s =>
      cases hm : m (c :: s) with
      | none =>
        rw [subFrom, hm]
        exact keep c s hm (ih s.length (by simp) s rfl)
      | some r =>
        obtain ⟨n, new⟩ := r
        rw [subFrom, hm]
        obtain ⟨x, y, s', hs, rfl, rfl, hlen, hx, hy⟩ := h.tag hm
        obtain ⟨rfl, rfl⟩ := List.cons.inj hs
        have hrest : subFrom m (x.length + 1 - 1) (x ++ s') = subFrom m 0 s' := by
          rw [subFrom_drop, Nat.add_sub_cancel, List.drop_left]
        simp only [hrest]
        have hlt : s'.length < ('<' :: (x ++ s')).length := by
          simp only [List.length_cons, List.length_append]
          omega
        exact swap x y s' (by simp [hm]) hx hy hlen (ih s'.length hlt s' rfl)

theorem length_subFrom (s : Str) : (subFrom m 0 s).length = s.length := by
  refine h.induct (P := fun s r => r.length = s.length) rfl ?_ ?_ s
  · intro c s _ ih
    rw [List.length_cons, ih, List.length_cons]
  · intro x y s _ _ _ hlen ih
    rw [List.length_cons, List.length_append, hlen, ih, List.length_cons, List.length_append]

theorem isPrefix_take_iff (hlt : '<' ∉ v) (hbr : '[' ∉ v) :
    v <+: (subFrom m 0 s).take n ↔ v <+: s.take n := by
  refine h.induct (P := fun s r => ∀ n v, '<' ∉ v → '[' ∉ v → (v <+: r.take n ↔ v <+: s.take n))
    (fun _ _ _ _ => Iff.rfl) ?_ ?_ s n v hlt hbr
  · intro c s _ ih n v hlt hbr
    cases n with
    | zero => rfl
    | succ n =>
      cases v with
      | nil => simp
      | cons d v =>
        rw [List.mem_cons, not_or] at hlt hbr
        rw [List.take_succ_cons, List.take_succ_cons, List.cons_prefix_cons, List.cons_prefix_cons]
        exact and_congr_right fun _ => ih n v hlt.2 hbr.2
  · intro x y s _ _ _ _ _ n v hlt hbr
    cases n with
    | zero => rfl
    | succ n =>
      cases v with
      | nil => simp
      | cons d v =>
        rw [List.mem_cons, not_or] at hlt hbr
        rw [List.take_succ_cons, List.take_succ_cons, List.cons_prefix_cons, List.cons_prefix_cons]
        exact iff_of_false (fun he => hbr.1 he.1.symm) fun he => hlt.1 he.1.symm

/-- A tag that is not matched where it stands is left alone, in every slice from the start. -/
theorem isInfix_take_iff (hlt : '<' ∉ v) (hbr : '[' ∉ v)
    (hkeep : ∀ s, v <+: s → m ('<' :: s) = none) :
    '<' :: v <:+: (subFrom m 0 s).take n ↔ '<' :: v <:+: s.take n := by
  refine h.induct (P := fun s r => ∀ n, '<' :: v <:+: r.take n ↔ '<' :: v <:+: s.take n)
    (fun _ => Iff.rfl) ?_ ?_ s n
  · intro c s _ ih n
    cases n with
    | zero => rfl
    | succ n =>
      rw [List.take_succ_cons, List.take_succ_cons, List.infix_cons_iff, List.infix_cons_iff, ih n,
        List.cons_prefix_cons, List.cons_prefix_cons, h.isPrefix_take_iff hlt hbr]
  · intro x y s hm hx hy hlen ih n
    cases n with
    | zero => rfl
    | succ n =>
      have hxn : '<' ∉ x.take n := fun hmem => hx (List.mem_of_mem_take hmem)
      have hyn : '<' ∉ y.take n := fun hmem => hy (List.mem_of_mem_take hmem)
      rw [List.take_succ_cons, List.take_succ_cons, List.take_append, List.take_append, hlen,
        List.infix_cons_iff, List.infix_cons_iff, cons_isInfix_append_iff hxn,
        cons_isInfix_append_iff hyn, ih, List.cons_prefix_cons, List.cons_prefix_cons]
      refine or_congr_left (iff_of_false (fun he => ?_) fun he => hm (hkeep _ ?_))
      · exact absurd he.1 (by decide)
      · rw [← List.take_append] at he
        exact he.2.trans (List.take_prefix _ _)

theorem isInfix_iff (hlt : '<' ∉ v) (hbr : '[' ∉ v)
    (hkeep : ∀ s, v <+: s → m ('<' :: s) = none) :
    '<' :: v <:+: subFrom m 0 s ↔ '<' :: v <:+: s := by
  have hiff := h.isInfix_take_iff (s := s) (n := (subFrom m 0 s).length + s.length) hlt hbr hkeep
  rwa [List.take_of_length_le (by omega), List.take_of_length_le (by omega)] at hiff

/-- A tag that is matched wherever it stands disappears. -/
theorem not_isInfix (hlt : '<' ∉ v) (hbr : '[' ∉ v)
    (hown : ∀ s, v <+: s → m ('<' :: s) ≠ none) : ¬ '<' :: v <:+: subFrom m 0 s := by
  refine h.induct (P := fun s r => ¬ '<' :: v <:+: r) (by simp) ?_ ?_ s
  · intro c s hm ih hin
    rcases List.infix_cons_iff.1 hin with hin | hin
    · obtain ⟨rfl, hpre⟩ := List.cons_prefix_cons.1 hin
      have hiff := h.isPrefix_take_iff (s := s) (n := (subFrom m 0 s).length + s.length) hlt hbr
      rw [List.take_of_length_le (by omega), List.take_of_length_le (by omega)] at hiff
      exact hown s (hiff.1 hpre) hm
    · exact ih hin
  · intro x y s _ _ hy _ ih hin
    rw [List.infix_cons_iff, cons_isInfix_append_iff hy, List.cons_prefix_cons] at hin
    rcases hin with hin | hin
    · exact absurd hin.1 (by decide)
    · exact ih hin

end Defuses

end RagLeap
