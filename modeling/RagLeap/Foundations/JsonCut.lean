import Mathlib.Algebra.Order.Group.Int
import RagLeap.Foundations.JsonRaw

/-!
# JSON text that breaks off

Until its last character, the text of an object has more braces and brackets open than closed, so
cut off anywhere it is no JSON text (`parse_cut_eq_none`), and putting one more character that is
no punctuation behind it does not mend it.

`depth` counts what the tokens leave open: a value that is read takes as much as it gives
(`value_depth`), and the tokens of a value never close more than they opened
(`balanced_tokens`).
-/

namespace RagLeap

namespace JsonText

open PyStr

variable {F : Type}

/-! ## Depth -/

/-- What a token opens, less what it closes. -/
def weight : Token F → ℤ
  | .punct .lbrace => 1
  | .punct .lbracket => 1
  | .punct .rbrace => -1
  | .punct .rbracket => -1
  | _ => 0

/-- What the tokens open and leave open. -/
def depth (l : List (Token F)) : ℤ := (l.map weight).sum

@[simp] theorem depth_nil : depth ([] : List (Token F)) = 0 := rfl

@[simp] theorem depth_cons (a : Token F) (l : List (Token F)) :
    depth (a :: l) = weight a + depth l := by
  simp [depth]

@[simp] theorem depth_append (l l' : List (Token F)) : depth (l ++ l') = depth l + depth l' := by
  simp [depth]

/-- A value, and the rest of an array or an object, take from the tokens what the depth says. -/
theorem value_depth (n : ℕ) :
    (∀ l t (rest : List (Token F)), value n l = some (t, rest) → depth l = depth rest) ∧
      (∀ l ts (rest : List (Token F)), items n l = some (ts, rest) → depth l = depth rest - 1) ∧
        ∀ l ms (rest : List (Token F)), members n l = some (ms, rest) →
          depth l = depth rest - 1 := by
  induction n with
  | zero => simp [value, items, members]
  | succ n ih =>
    obtain ⟨hvalue, hitems, hmembers⟩ := ih
    refine ⟨fun l t rest h => ?_, fun l ts rest h => ?_, fun l ms rest h => ?_⟩
    · rw [value.eq_def] at h
      split at h
      case h_1 =>
        obtain ⟨-, rfl⟩ := Prod.mk.inj (Option.some.inj h)
        simp [weight]
      case h_2 =>
        obtain ⟨-, rfl⟩ := Prod.mk.inj (Option.some.inj h)
        simp [weight]
      case h_3 =>
        obtain ⟨-, rfl⟩ := Prod.mk.inj (Option.some.inj h)
        simp [weight]
      case h_4 heq =>
        obtain rfl := Nat.succ.inj heq
        obtain ⟨⟨ts, rest'⟩, hts, hr⟩ := Option.map_eq_some_iff.1 h
        obtain ⟨-, rfl⟩ := Prod.mk.inj hr
        have := hitems _ _ _ hts
        simp only [depth_cons, weight]
        omega
      case h_5 =>
        obtain ⟨-, rfl⟩ := Prod.mk.inj (Option.some.inj h)
        simp [weight]
      case h_6 heq =>
        obtain rfl := Nat.succ.inj heq
        obtain ⟨⟨ms, rest'⟩, hms, hr⟩ := Option.map_eq_some_iff.1 h
        obtain ⟨-, rfl⟩ := Prod.mk.inj hr
        have := hmembers _ _ _ hms
        simp only [depth_cons, weight]
        omega
      case h_7 => cases h
    · rw [items] at h
      split at h
      case h_1 l' hv =>
        obtain ⟨-, rfl⟩ := Prod.mk.inj (Option.some.inj h)
        have := hvalue _ _ _ hv
        simp only [depth_cons, weight] at this
        omega
      case h_2 l' hv =>
        obtain ⟨⟨ts', rest'⟩, hts, hr⟩ := Option.map_eq_some_iff.1 h
        obtain ⟨-, rfl⟩ := Prod.mk.inj hr
        have := hvalue _ _ _ hv
        have := hitems _ _ _ hts
        simp only [depth_cons, weight] at *
        omega
      case h_3 => cases h
    · rw [members.eq_def] at h
      split at h
      case h_1 heq =>
        obtain rfl := Nat.succ.inj heq
        split at h
        case h_1 l' hv =>
          obtain ⟨-, rfl⟩ := Prod.mk.inj (Option.some.inj h)
          have := hvalue _ _ _ hv
          simp only [depth_cons, weight] at *
          omega
        case h_2 l' hv =>
          obtain ⟨⟨ms', rest'⟩, hms, hr⟩ := Option.map_eq_some_iff.1 h
          obtain ⟨-, rfl⟩ := Prod.mk.inj hr
          have := hvalue _ _ _ hv
          have := hmembers _ _ _ hms
          simp only [depth_cons, weight] at *
          omega
        case h_3 => cases h
      case h_2 => cases h

/-- Tokens that write a value close what they open. -/
theorem depth_of_ofTokens {l : List (Token F)} {t : Value F} (h : ofTokens l = some t) :
    depth l = 0 := by
  unfold ofTokens at h
  split at h
  case h_1 t' hv => exact (value_depth _).1 _ _ _ hv
  case h_2 => exact nomatch h

/-! ## Balanced tokens -/

/-- The tokens close what they open, and nothing else. -/
structure Balanced (l : List (Token F)) : Prop where
  closed : depth l = 0
  nonneg : ∀ q, q <+: l → 0 ≤ depth q

theorem Balanced.nil : Balanced ([] : List (Token F)) where
  closed := rfl
  nonneg q hq := by rw [List.prefix_nil.1 hq, depth_nil]

theorem Balanced.append {l l' : List (Token F)} (h : Balanced l) (h' : Balanced l') :
    Balanced (l ++ l') where
  closed := by rw [depth_append, h.closed, h'.closed, add_zero]
  nonneg q hq := by
    rcases List.prefix_or_prefix_of_prefix hq (List.prefix_append l l') with hq' | ⟨r, rfl⟩
    · exact h.nonneg q hq'
    · have := h'.nonneg r ((List.prefix_append_right_inj l).1 hq)
      rw [depth_append, h.closed]
      omega

theorem Balanced.cons {a : Token F} {l : List (Token F)} (ha : weight a = 0) (h : Balanced l) :
    Balanced (a :: l) where
  closed := by rw [depth_cons, ha, h.closed, add_zero]
  nonneg q hq := by
    rcases List.prefix_cons_iff.1 hq with rfl | ⟨r, rfl, hr⟩
    · exact le_rfl
    · have := h.nonneg r hr
      rw [depth_cons, ha]
      omega

theorem Balanced.sepBy {L : List (List (Token F))} (h : ∀ l ∈ L, Balanced l) :
    Balanced (sepBy (.punct .comma) L) := by
  induction L with
  | nil => exact Balanced.nil
  | cons l L ih =>
    have hl := h l List.mem_cons_self
    have hL := ih fun l' hl' => h l' (List.mem_cons_of_mem l hl')
    cases L with
    | nil => exact hl
    | cons l' L => exact hl.append (hL.cons rfl)

/-- Between what opens and what closes it, something is open. -/
theorem Balanced.pos {a b : Token F} {l q : List (Token F)} (h : Balanced l) (ha : weight a = 1)
    (hq : q <+: a :: l ++ [b]) (hne : q ≠ []) (hproper : q ≠ a :: l ++ [b]) : 0 < depth q := by
  rcases List.prefix_concat_iff.1 hq with rfl | hq
  · exact absurd rfl hproper
  · rcases List.prefix_cons_iff.1 hq with rfl | ⟨r, rfl, hr⟩
    · exact absurd rfl hne
    · have := h.nonneg r hr
      rw [depth_cons, ha]
      omega

theorem Balanced.wrap {a b : Token F} {l : List (Token F)} (h : Balanced l) (ha : weight a = 1)
    (hb : weight b = -1) : Balanced (a :: l ++ [b]) where
  closed := by simp [ha, hb, h.closed]
  nonneg q hq := by
    by_cases hne : q = []
    · rw [hne, depth_nil]
    · by_cases hfull : q = a :: l ++ [b]
      · simp [hfull, ha, hb, h.closed]
      · exact (h.pos ha hq hne hfull).le

theorem balanced_tokens (t : Value F) : Balanced (tokens t) := by
  induction t using Value.ind with
  | atom a =>
    rw [tokens]
    exact Balanced.nil.cons rfl
  | str s =>
    rw [tokens]
    exact Balanced.nil.cons rfl
  | arr items ih =>
    rw [tokens, tokensItems_eq]
    apply Balanced.wrap _ rfl rfl
    apply Balanced.sepBy
    rintro _ hl
    obtain ⟨t, ht, rfl⟩ := List.mem_map.1 hl
    exact ih t ht
  | obj members ih =>
    rw [tokens, tokensMembers_eq]
    apply Balanced.wrap _ rfl rfl
    apply Balanced.sepBy
    rintro _ hl
    obtain ⟨m, hm, rfl⟩ := List.mem_map.1 hl
    exact ((ih m hm).cons rfl).cons rfl

/-- In the tokens of an object something is open until the last one. -/
theorem depth_pos_of_obj {ms : List (PyStr × Value F)} {q : List (Token F)}
    (hq : q <+: tokens (.obj ms)) (hne : q ≠ []) (hproper : q ≠ tokens (.obj ms)) :
    0 < depth q := by
  rw [tokens, tokensMembers_eq] at hq hproper
  apply Balanced.pos _ rfl hq hne hproper
  apply Balanced.sepBy
  rintro _ hl
  obtain ⟨m, -, rfl⟩ := List.mem_map.1 hl
  exact ((balanced_tokens m.2).cons rfl).cons rfl

/-! ## Lexing in two parts -/

variable (fl : Floats F)

/-- The tokens of the first part of a text, and where it leaves the lexer. -/
def runFrom (m : Mode) : PyStr → Option (List (Token F) × Mode)
  | [] => some ([], m)
  | c :: s => (step fl m c).bind fun r => (runFrom r.2 s).map fun r' => (r.1 ++ r'.1, r'.2)

theorem lexFrom_append (m : Mode) (s s' : PyStr) :
    lexFrom fl m (s ++ s') =
      (runFrom fl m s).bind fun r => (lexFrom fl r.2 s').map (r.1 ++ ·) := by
  induction s generalizing m with
  | nil => simp [runFrom]
  | cons c s ih =>
    rw [List.cons_append, lexFrom, runFrom]
    cases hstep : step fl m c with
    | none => rfl
    | some r =>
      rw [Option.bind_some, Option.bind_some, ih]
      cases runFrom fl r.2 s with
      | none => rfl
      | some r' => simp [Function.comp_def]

theorem depth_finish {m : Mode} {l : List (Token F)} (h : finish fl m = some l) : depth l = 0 := by
  cases m with
  | between => rw [← Option.some.inj h, depth_nil]
  | bare w =>
    obtain ⟨a, -, rfl⟩ := Option.map_eq_some_iff.1 h
    rfl
  | string units => exact nomatch h
  | escape units => exact nomatch h
  | hex units left n => exact nomatch h

/-- A character that is no punctuation leaves the depth as it is. -/
theorem depth_lexFrom_char {m : Mode} {c : CodePoint} (hc : punctuation c = none)
    {l : List (Token F)} (h : lexFrom fl m [c] = some l) : depth l = 0 := by
  obtain ⟨⟨out, n⟩, hstep, hrest⟩ := Option.bind_eq_some_iff.1 h
  obtain ⟨l', hl', rfl⟩ := Option.map_eq_some_iff.1 hrest
  have henter : (enter c).1 = [] := by
    unfold enter
    rw [hc]
    split_ifs <;> rfl
  have hout : depth out = 0 := by
    cases m with
    | between =>
      obtain ⟨rfl, -⟩ := Prod.mk.inj (Option.some.inj hstep)
      rw [henter]
      rfl
    | bare w =>
      simp only [step] at hstep
      split_ifs at hstep
      · obtain ⟨rfl, -⟩ := Prod.mk.inj (Option.some.inj hstep)
        rfl
      · obtain ⟨a, -, ha⟩ := Option.map_eq_some_iff.1 hstep
        obtain ⟨rfl, -⟩ := Prod.mk.inj ha
        rw [henter]
        rfl
    | string units =>
      simp only [step] at hstep
      split_ifs at hstep
      all_goals
        obtain ⟨rfl, -⟩ := Prod.mk.inj (Option.some.inj hstep)
        rfl
    | escape units =>
      simp only [step] at hstep
      split_ifs at hstep
      · obtain ⟨rfl, -⟩ := Prod.mk.inj (Option.some.inj hstep)
        rfl
      · obtain ⟨a, -, ha⟩ := Option.map_eq_some_iff.1 hstep
        obtain ⟨rfl, -⟩ := Prod.mk.inj ha
        rfl
    | hex units left k =>
      obtain ⟨d, -, hd⟩ := Option.map_eq_some_iff.1 hstep
      split_ifs at hd
      all_goals
        obtain ⟨rfl, -⟩ := Prod.mk.inj hd
        rfl
  rw [depth_append, hout, depth_finish fl hl', add_zero]

/-- A text that ends with a closing brace ends with a token. -/
theorem lexFrom_rbrace_ne_nil {m : Mode} {s : PyStr} {l : List (Token F)}
    (h : lexFrom fl m (s ++ [ch '\x7d']) = some l) : l ≠ [] := by
  induction s generalizing m l with
  | nil =>
    obtain ⟨⟨out, n⟩, hstep, hrest⟩ := Option.bind_eq_some_iff.1 h
    obtain ⟨l', hl', rfl⟩ := Option.map_eq_some_iff.1 hrest
    cases m with
    | between =>
      obtain ⟨rfl, -⟩ := Prod.mk.inj (Option.some.inj hstep)
      exact List.cons_ne_nil _ _
    | bare w =>
      have hbare : step fl (.bare w) (ch '\x7d') =
          (atomOf fl w).map fun a => (.atom a :: [.punct .rbrace], .between) := rfl
      rw [hbare] at hstep
      obtain ⟨a, -, ha⟩ := Option.map_eq_some_iff.1 hstep
      obtain ⟨rfl, -⟩ := Prod.mk.inj ha
      exact List.cons_ne_nil _ _
    | string units =>
      obtain ⟨-, rfl⟩ := Prod.mk.inj (Option.some.inj hstep)
      exact nomatch hl'
    | escape units =>
      exact nomatch hstep
    | hex units left k => exact nomatch hstep
  | cons c s ih =>
    obtain ⟨⟨out, n⟩, -, hrest⟩ := Option.bind_eq_some_iff.1 h
    obtain ⟨l', hl', rfl⟩ := Option.map_eq_some_iff.1 hrest
    exact fun hnil => ih hl' (List.append_eq_nil_iff.1 hnil).2

/-! ## A text cut off -/

/-- **Cut off before its end, the text of an object is no JSON text**, with or without a
character that is no punctuation where it was cut. -/
theorem parse_cut_eq_none {ms : List (PyStr × Value F)} {p q : PyStr} {c : CodePoint}
    (hc : punctuation c = none) (htext : printRaw fl (.obj ms) = p ++ q) (hp : p ≠ [])
    (hq : q ≠ []) : parse fl p = none ∧ parse fl (p ++ [c]) = none := by
  have hlex := lexFrom_printRaw fl (.obj ms)
  rw [htext, lexFrom_append] at hlex
  obtain ⟨⟨out, m⟩, hrun, hrest⟩ := Option.bind_eq_some_iff.1 hlex
  obtain ⟨l, hl, htokens⟩ := Option.map_eq_some_iff.1 hrest
  dsimp only at hl htokens
  rw [printRaw] at htext
  -- the rest ends with the closing brace, and so with a token
  have hlast : l ≠ [] := by
    obtain ⟨q', x, rfl⟩ := (List.eq_nil_or_concat q).resolve_left hq
    rw [List.concat_eq_append, ← List.append_assoc] at htext
    obtain ⟨-, hx⟩ := List.append_inj' htext rfl
    rw [List.concat_eq_append, ← hx] at hl
    exact lexFrom_rbrace_ne_nil fl hl
  -- what was cut off starts with the opening brace
  have hfirst : out ≠ [] := by
    obtain ⟨d, p', rfl⟩ := List.exists_cons_of_ne_nil hp
    rw [List.cons_append, List.cons_append, List.cons.injEq] at htext
    obtain ⟨rfl, -⟩ := htext
    obtain ⟨⟨out', n⟩, hstep, hrun'⟩ := Option.bind_eq_some_iff.1 hrun
    obtain ⟨r, -, hr⟩ := Option.map_eq_some_iff.1 hrun'
    obtain ⟨rfl, -⟩ := Prod.mk.inj hr
    obtain ⟨rfl, -⟩ := Prod.mk.inj (Option.some.inj hstep)
    exact List.cons_ne_nil _ _
  have hpos : 0 < depth out := by
    have hprefix : out <+: tokens (.obj ms) := ⟨l, htokens⟩
    apply depth_pos_of_obj hprefix hfirst
    rintro rfl
    exact hlast (List.append_right_eq_self.1 htokens)
  -- what comes behind does not close what is open
  have hnone : ∀ s : PyStr, (∀ l', lexFrom fl m s = some l' → depth l' = 0) →
      parse fl (p ++ s) = none := by
    intro s hs
    rw [parse, Option.map_eq_none_iff, Option.bind_eq_none_iff]
    intro l' hl'
    rw [lexFrom_append, hrun, Option.bind_some] at hl'
    obtain ⟨l'', hl'', rfl⟩ := Option.map_eq_some_iff.1 hl'
    rw [Option.eq_none_iff_forall_ne_some]
    intro t ht
    have hzero := depth_of_ofTokens ht
    rw [depth_append, hs l'' hl'', add_zero] at hzero
    exact hpos.ne' hzero
  refine ⟨?_, hnone [c] fun l' => depth_lexFrom_char fl hc⟩
  rw [← List.append_nil p]
  exact hnone [] fun l' => depth_finish fl

end JsonText

end RagLeap
