import RagLeap.Foundations.Dict
import RagLeap.Foundations.Numeral

/-!
# Token budgets

`check_budget` compares the tokens of the ledger with the caps of the settings (`core.budget`).
The caps are read from texts, one number at a time, and a text that is no number is passed over.
An infinity is not: `int` raises an `OverflowError` that no reader of a number handles, and the
outer handler lets the call through (`checkBudget_eq_none`). Otherwise every well-formed cap has
its effect, whatever the other entries are (`independent_iff`).
-/

namespace RagLeap.Budget

inductive Period
  | day
  | month
  deriving DecidableEq

/-- The exceptions met on the way: of a number, or of the ledger's query. -/
inductive Exc
  | number (e : Numeral.Error)
  | ledger
  deriving DecidableEq

/-- The settings, by name, and the digits `float` knows. -/
structure Env where
  environ : String → Option Str
  digits : DigitTable

/-- A cap: all roles together, or one role. -/
structure Check where
  role : Option Str
  period : Period
  limit : ℕ
  deriving DecidableEq

/-- What `check_budget` returns for an exceeded cap. -/
structure Refusal where
  check : Check
  used : ℤ
  deriving DecidableEq

/-! ## Reading the caps -/

/-- `_int_env`. -/
def intEnv (env : Env) (name : String) : Except Exc ℕ :=
  match env.environ name with
  | none | some [] => .ok 0
  | some raw =>
    match Numeral.number env.digits raw with
    | .ok n => .ok n.toNat
    | .error .value => .ok 0
    | .error .overflow => .error (.number .overflow)

/-- The key and the text of the value of an item, if it has an `=`. -/
def partition (item : Str) : Option (Str × Str) :=
  if '=' ∈ item then
    some (Str.strip (item.takeWhile (· ≠ '=')), Str.strip (item.dropWhile (· ≠ '=')).tail)
  else none

/-- One turn of the loop of `_map_env`. -/
def mapItem (env : Env) (out : Dict Str ℕ) (item : Str) : Except Exc (Dict Str ℕ) :=
  match partition item with
  | none => .ok out
  | some (key, val) =>
    match Numeral.number env.digits val with
    | .ok n => .ok (out.set key n.toNat)
    | .error .value => .ok out
    | .error .overflow => .error (.number .overflow)

/-- The items of an override setting. -/
def items (env : Env) (name : String) : List Str :=
  ((env.environ name).getD []).splitOnP (· = ',')

/-- `_map_env`. -/
def mapEnv (env : Env) (name : String) : Except Exc (Dict Str ℕ) :=
  (items env name).foldlM (mapItem env) .empty

/-- The settings with the caps of a period. -/
def globalName : Period → String
  | .day => "BUDGET_DAILY_TOKENS"
  | .month => "BUDGET_MONTHLY_TOKENS"

def defaultName : Period → String
  | .day => "BUDGET_ROLE_DAILY_TOKENS"
  | .month => "BUDGET_ROLE_MONTHLY_TOKENS"

def overrideName : Period → String
  | .day => "BUDGET_ROLE_DAILY_OVERRIDES"
  | .month => "BUDGET_ROLE_MONTHLY_OVERRIDES"

/-- A cap of 0 is none. -/
def checkOf (role : Option Str) (period : Period) (limit : ℕ) : List Check :=
  if 0 < limit then [⟨role, period, limit⟩] else []

def globalChecks (env : Env) (period : Period) : Except Exc (List Check) := do
  let limit ← intEnv env (globalName period)
  return checkOf none period limit

def roleChecks (env : Env) (role : Str) (period : Period) : Except Exc (List Check) := do
  let overrides ← mapEnv env (overrideName period)
  let default ← intEnv env (defaultName period)
  return checkOf (some role) period ((overrides.get? role).getD default)

/-- `_limits`. -/
def limits (env : Env) (role : Option Str) : Except Exc (List Check) := do
  let day ← globalChecks env .day
  let month ← globalChecks env .month
  match role with
  | none | some [] => return day ++ month
  | some role =>
    let roleDay ← roleChecks env role .day
    let roleMonth ← roleChecks env role .month
    return day ++ month ++ (roleDay ++ roleMonth)

/-! ## Checking them -/

/-- The ledger's answers; a query may raise. -/
abbrev Ledger := Option Str → Period → Except Exc ℤ

/-- The loop of `check_budget`. -/
def firstExceeded (used : Ledger) : List Check → Except Exc (Option Refusal)
  | [] => .ok none
  | c :: cs => do
    let n ← used c.role c.period
    if (c.limit : ℤ) ≤ n then return some ⟨c, n⟩ else firstExceeded used cs

/-- `check_budget`: none if the call may proceed. -/
def checkBudget (env : Env) (used : Ledger) (role : Option Str) : Option Refusal :=
  match limits env role >>= firstExceeded used with
  | .ok res => res
  | .error _ => none

/-! ## The caps the settings state -/

/-- The number a text states, if it is one; a negative cap counts as 0. -/
def stated (env : Env) (text : Str) : Option ℕ :=
  match Numeral.number env.digits text with
  | .ok n => some n.toNat
  | .error _ => none

/-- The cap of a setting; a malformed one states none. -/
def cap (env : Env) (name : String) : ℕ := ((env.environ name).bind (stated env)).getD 0

/-- An override and its cap, if the item is well formed. -/
def overrideOf (env : Env) (item : Str) : Option (Str × ℕ) :=
  (partition item).bind fun (key, val) => (stated env val).map fun n => (key, n)

/-- The well-formed overrides of a setting; the last one of a key counts. -/
def overrides (env : Env) (name : String) : Dict Str ℕ :=
  ((items env name).filterMap (overrideOf env)).foldl (fun out e => out.set e.1 e.2) .empty

/-- The cap for all roles. -/
def globalCaps (env : Env) (period : Period) : List Check :=
  checkOf none period (cap env (globalName period))

/-- The cap for the role: its override, or else the default. -/
def roleCaps (env : Env) (role : Str) (period : Period) : List Check :=
  checkOf (some role) period
    (((overrides env (overrideName period)).get? role).getD (cap env (defaultName period)))

/-- The well-formed caps that apply. -/
def caps (env : Env) (role : Option Str) : List Check :=
  match role with
  | none | some [] => globalCaps env .day ++ globalCaps env .month
  | some role =>
    globalCaps env .day ++ globalCaps env .month ++ (roleCaps env role .day ++ roleCaps env role .month)

/-! ## Entries that are infinite -/

/-- The setting's text denotes an infinity. -/
def InfiniteSetting (env : Env) (name : String) : Prop :=
  ∃ text, env.environ name = some text ∧ Numeral.Infinite env.digits text

/-- The item's value denotes an infinity. -/
def InfiniteValue (env : Env) (item : Str) : Prop :=
  ∃ key val, partition item = some (key, val) ∧ Numeral.Infinite env.digits val

/-- A text among the settings for the roles in the period denotes an infinity. -/
def InfiniteForRoles (env : Env) (period : Period) : Prop :=
  (∃ item ∈ items env (overrideName period), InfiniteValue env item) ∨
    InfiniteSetting env (defaultName period)

/-- A check for the role reads a text that denotes an infinity. -/
def ReadsInfinity (env : Env) (role : Option Str) : Prop :=
  (∃ period, InfiniteSetting env (globalName period)) ∨
    (role ≠ none ∧ role ≠ some [] ∧ ∃ period, InfiniteForRoles env period)

/-- A reader returns the value, but for the bad texts, where it overflows. -/
def Reads {α : Type} (bad : Prop) (x : Except Exc α) (v : α) : Prop :=
  bad ∧ x = .error (.number .overflow) ∨ ¬ bad ∧ x = .ok v

namespace Reads

variable {α β : Type} {bad bad' : Prop} {x : Except Exc α} {v : α}

theorem bind {f : α → Except Exc β} {v' : β} (h : Reads bad x v) (h' : Reads bad' (f v) v') :
    Reads (bad ∨ bad') (x >>= f) v' := by
  rcases h with ⟨hbad, rfl⟩ | ⟨hgood, rfl⟩
  · exact .inl ⟨.inl hbad, rfl⟩
  · rcases h' with ⟨hbad', hf⟩ | ⟨hgood', hf⟩
    · exact .inl ⟨.inr hbad', hf⟩
    · exact .inr ⟨not_or.2 ⟨hgood, hgood'⟩, hf⟩

theorem map (h : Reads bad x v) (f : α → β) : Reads bad (x >>= fun a => pure (f a)) (f v) := by
  rcases h with ⟨hbad, rfl⟩ | ⟨hgood, rfl⟩
  · exact .inl ⟨hbad, rfl⟩
  · exact .inr ⟨hgood, rfl⟩

theorem congr (h : Reads bad x v) (hiff : bad ↔ bad') : Reads bad' x v := propext hiff ▸ h

end Reads

variable {env : Env}

theorem number_cases (table : DigitTable) (s : Str) :
    Numeral.Infinite table s ∧ Numeral.number table s = .error .overflow ∨
      ¬ Numeral.Infinite table s ∧
        (Numeral.number table s = .error .value ∨ ∃ n, Numeral.number table s = .ok n) := by
  rw [← Numeral.number_eq_overflow_iff]
  rcases h : Numeral.number table s with (_ | _) | n
  · exact .inr ⟨nofun, .inl rfl⟩
  · exact .inl ⟨rfl, rfl⟩
  · exact .inr ⟨nofun, .inr ⟨n, rfl⟩⟩

theorem reads_intEnv (env : Env) (name : String) :
    Reads (InfiniteSetting env name) (intEnv env name) (cap env name) := by
  unfold intEnv cap InfiniteSetting
  cases henv : env.environ name with
  | none => exact .inr ⟨fun ⟨_, h, _⟩ => (nomatch h), rfl⟩
  | some raw =>
    have hbad : (∃ text, some raw = some text ∧ Numeral.Infinite env.digits text) ↔
        Numeral.Infinite env.digits raw :=
      ⟨fun ⟨_, h, hinf⟩ => Option.some.inj h ▸ hinf, fun h => ⟨raw, rfl, h⟩⟩
    refine Reads.congr ?_ hbad.symm
    cases raw with
    | nil => exact .inr ⟨fun ⟨_, h⟩ => (nomatch h), rfl⟩
    | cons c cs =>
      rcases number_cases env.digits (c :: cs) with ⟨hinf, hn⟩ | ⟨hfin, hn | ⟨n, hn⟩⟩
      · exact .inl ⟨hinf, by simp only [hn]⟩
      · exact .inr ⟨hfin, by simp [stated, hn]⟩
      · exact .inr ⟨hfin, by simp [stated, hn]⟩

theorem reads_mapItem (env : Env) (out : Dict Str ℕ) (item : Str) :
    Reads (InfiniteValue env item) (mapItem env out item)
      ((overrideOf env item).elim out fun e => out.set e.1 e.2) := by
  unfold mapItem overrideOf InfiniteValue
  cases hitem : partition item with
  | none => exact .inr ⟨fun ⟨_, _, h, _⟩ => (nomatch h), rfl⟩
  | some e =>
    obtain ⟨key, val⟩ := e
    have hbad : (∃ k v, some (key, val) = some (k, v) ∧ Numeral.Infinite env.digits v) ↔
        Numeral.Infinite env.digits val :=
      ⟨fun ⟨_, _, h, hinf⟩ => by cases h; exact hinf, fun h => ⟨key, val, rfl, h⟩⟩
    refine Reads.congr ?_ hbad.symm
    rcases number_cases env.digits val with ⟨hinf, hn⟩ | ⟨hfin, hn | ⟨n, hn⟩⟩
    · exact .inl ⟨hinf, by simp only [hn]⟩
    · exact .inr ⟨hfin, by simp [stated, hn]⟩
    · exact .inr ⟨hfin, by simp [stated, hn]⟩

/-- The loop passes over malformed items and stops at the first infinity. -/
theorem reads_foldlM (env : Env) (items : List Str) (out : Dict Str ℕ) :
    Reads (∃ item ∈ items, InfiniteValue env item) (items.foldlM (mapItem env) out)
      ((items.filterMap (overrideOf env)).foldl (fun out e => out.set e.1 e.2) out) := by
  induction items generalizing out with
  | nil => exact .inr ⟨fun ⟨_, h, _⟩ => (nomatch h), rfl⟩
  | cons item items ih =>
    rw [List.foldlM_cons]
    have hstep := (reads_mapItem env out item).bind
      (f := fun out => items.foldlM (mapItem env) out) (ih _)
    have hvalue : ((item :: items).filterMap (overrideOf env)).foldl
          (fun out e => out.set e.1 e.2) out =
        (items.filterMap (overrideOf env)).foldl (fun out e => out.set e.1 e.2)
          ((overrideOf env item).elim out fun e => out.set e.1 e.2) := by
      cases h : overrideOf env item with
      | none => rw [List.filterMap_cons_none h]; rfl
      | some e => rw [List.filterMap_cons_some h]; rfl
    rw [hvalue]
    exact hstep.congr (by simp)

theorem reads_mapEnv (env : Env) (name : String) :
    Reads (∃ item ∈ items env name, InfiniteValue env item) (mapEnv env name)
       (overrides env name) :=
  reads_foldlM env (items env name) .empty

theorem reads_globalChecks (env : Env) (period : Period) :
    Reads (InfiniteSetting env (globalName period)) (globalChecks env period)
      (globalCaps env period) :=
  (reads_intEnv env _).map _

theorem reads_roleChecks (env : Env) (role : Str) (period : Period) :
    Reads (InfiniteForRoles env period) (roleChecks env role period) (roleCaps env role period) :=
  (reads_mapEnv env _).bind ((reads_intEnv env _).map _)

theorem exists_period {p : Period → Prop} : (∃ period, p period) ↔ p .day ∨ p .month :=
  ⟨fun ⟨period, h⟩ => by cases period; exacts [.inl h, .inr h],
    fun h => h.elim (fun h => ⟨.day, h⟩) fun h => ⟨.month, h⟩⟩

/-- **The caps are read as stated, unless a text denotes an infinity.** -/
theorem reads_limits (env : Env) (role : Option Str) :
    Reads (ReadsInfinity env role) (limits env role) (caps env role) := by
  have hday := reads_globalChecks env .day
  have hmonth := reads_globalChecks env .month
  unfold ReadsInfinity
  rw [exists_period, exists_period]
  rcases role with _ | _ | ⟨c, cs⟩
  · exact (hday.bind (hmonth.map _)).congr (by simp)
  · exact (hday.bind (hmonth.map _)).congr (by simp)
  · have hread : Reads (_ ∨ _ ∨ _ ∨ _) (limits env (some (c :: cs))) (caps env (some (c :: cs))) :=
      hday.bind (hmonth.bind ((reads_roleChecks env (c :: cs) .day).bind
        ((reads_roleChecks env (c :: cs) .month).map _)))
    exact hread.congr (by simp [or_assoc])

/-! ## What a check does -/

/-- What the loop makes of the caps, with the outer handler. -/
def effect (used : Ledger) (checks : List Check) : Option Refusal :=
  match firstExceeded used checks with
  | .ok res => res
  | .error _ => none

/-- The ledger where every query goes through. -/
def answers (used : Option Str → Period → ℤ) : Ledger := fun role period => .ok (used role period)

/-- Every well-formed cap has its effect, whatever else stands in the settings: the check is that of
the well-formed caps, and an exceeded one refuses the call. -/
structure Independent (env : Env) (role : Option Str) : Prop where
  effect_caps : ∀ used, checkBudget env used role = effect used (caps env role)
  refuses : ∀ used, ∀ c ∈ caps env role, (c.limit : ℤ) ≤ used c.role c.period →
    ∃ r, checkBudget env (answers used) role = some r ∧ r.check ∈ caps env role ∧
      (r.check.limit : ℤ) ≤ r.used

theorem checkBudget_eq_effect {role : Option Str} (h : ¬ ReadsInfinity env role) (used : Ledger) :
    checkBudget env used role = effect used (caps env role) := by
  unfold checkBudget effect
  rcases reads_limits env role with ⟨hbad, -⟩ | ⟨-, hlimits⟩
  · exact absurd hbad h
  · rw [hlimits]
    rfl

/-- An infinity among the texts lets every call through. -/
theorem checkBudget_eq_none {role : Option Str} (h : ReadsInfinity env role) (used : Ledger) :
    checkBudget env used role = none := by
  unfold checkBudget
  rcases reads_limits env role with ⟨-, hlimits⟩ | ⟨hgood, -⟩
  · rw [hlimits]
    rfl
  · exact absurd h hgood

/-- The first exceeded cap of a list is found. -/
theorem effect_answers {used : Option Str → Period → ℤ} {checks : List Check} {c : Check}
    (hc : c ∈ checks) (h : (c.limit : ℤ) ≤ used c.role c.period) :
    ∃ r, effect (answers used) checks = some r ∧ r.check ∈ checks ∧
      (r.check.limit : ℤ) ≤ r.used := by
  induction checks with
  | nil => cases hc
  | cons c' checks ih =>
    by_cases hc' : (c'.limit : ℤ) ≤ used c'.role c'.period
    · refine ⟨⟨c', used c'.role c'.period⟩, ?_, List.mem_cons_self, hc'⟩
      simp only [effect, firstExceeded, answers, bind, Except.bind, if_pos hc']
      rfl
    · have hmem : c ∈ checks := by
        rcases List.mem_cons.1 hc with rfl | hmem
        · exact absurd h hc'
        · exact hmem
      obtain ⟨r, hr, hcheck, hlimit⟩ := ih hmem
      refine ⟨r, ?_, List.mem_cons_of_mem _ hcheck, hlimit⟩
      rw [← hr]
      simp only [effect, firstExceeded, answers, bind, Except.bind, if_neg hc']

/-- **The caps are independent exactly when no text read denotes an infinity**, or no well-formed cap
applies at all. -/
theorem independent_iff (env : Env) (role : Option Str) :
    Independent env role ↔ ¬ ReadsInfinity env role ∨ caps env role = [] := by
  constructor
  · intro h
    by_contra hnot
    rw [not_or, not_not] at hnot
    obtain ⟨hbad, hcaps⟩ := hnot
    obtain ⟨c, hc⟩ := List.exists_mem_of_ne_nil _ hcaps
    obtain ⟨r, hr, -⟩ := h.refuses (fun _ _ => c.limit) c hc le_rfl
    rw [checkBudget_eq_none hbad] at hr
    cases hr
  · intro h
    have heffect : ∀ used, checkBudget env used role = effect used (caps env role) := by
      intro used
      by_cases hbad : ReadsInfinity env role
      · rw [checkBudget_eq_none hbad, h.resolve_left (not_not.2 hbad)]
        rfl
      · exact checkBudget_eq_effect hbad used
    refine ⟨heffect, ?_⟩
    intro used c hc hexceeded
    rw [heffect]
    exact effect_answers hc hexceeded

/-! ### An infinite override -/

/-- A daily cap of ten tokens for all roles, and an override of another role. -/
def infEnv : Env where
  environ name :=
    if name = "BUDGET_DAILY_TOKENS" then some "10".toList
    else if name = "BUDGET_ROLE_DAILY_OVERRIDES" then some "sales=inf".toList
    else none
  digits := .ascii

/-- A malformed override of one role switches the cap of all roles off. -/
theorem infinite_override_lifts_cap : ¬ ∀ env role, Independent env role := by
  intro h
  have hcaps : caps infEnv (some "support".toList) = [⟨none, .day, 10⟩] := by decide +kernel
  have hnone : checkBudget infEnv (answers fun _ _ => 11) (some "support".toList) = none := by
    decide +kernel
  obtain ⟨r, hr, -⟩ := (h infEnv (some "support".toList)).refuses (fun _ _ => 11) ⟨none, .day, 10⟩
    (hcaps ▸ List.mem_singleton.2 rfl) (by decide)
  rw [hnone] at hr
  cases hr

end RagLeap.Budget
