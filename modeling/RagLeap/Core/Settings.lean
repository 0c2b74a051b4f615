import RagLeap.Foundations.Dict
import RagLeap.Foundations.Text

/-!
# Where a setting comes from

`get` of `core/settings.py` answers with the value of the dashboard, else that of the environment,
else the default; `source` names the one of the three that `describe` shows beside the value.
`Supplies` says from where a value comes, and `get_supplied` that `get` returns the first there is.

`source` asks only whether the dashboard has a row, and takes a blank variable for none, where `get`
falls back when the row cannot be decrypted and returns a blank variable as it is. `agrees_iff`: the
two name the same place just where neither difference shows.
-/

namespace RagLeap.Settings

/-! ## The code -/

/-- The `Fernet` of the `cryptography` package, keys and tokens as texts: which texts are keys, and
encryption, with the random bytes it draws, and decryption where they do not raise. -/
structure Fernet where
  isKey : Str → Bool
  encrypt (key random text : Str) : Option Str
  decrypt (key token : Str) : Option Str
  decrypt_encrypt : ∀ {key random text token : Str},
    encrypt key random text = some token → decrypt key token = some text

/-- What the module asks of the process it runs in: the environment, the character tables, the
digits and numbers of `str.isdigit` and `int`, and the encryption. -/
structure Host where
  environ : Str → Option Str
  unicode : Unicode
  isDigit : Str → Bool
  int : Str → Option ℤ
  fernet : Fernet

/-- A row of `app_settings` under its key. -/
structure Row where
  value : Str
  secret : Bool

/-- `_fernet`: the key of the environment, if there is one and it is valid. -/
def fernetKey (host : Host) : Option Str :=
  let raw := Str.strip ((host.environ "ADDON_ENCRYPTION_KEY".toList).getD [])
  if raw = [] then none else if host.fernet.isKey raw then some raw else none

def get (host : Host) (rows : Dict Str Row) (name default : Str) : Str :=
  let envValue := host.environ name
  match rows.get? name with
  | none => envValue.getD default
  | some row =>
    if ¬ row.secret then row.value
    else
      match fernetKey host with
      | none => envValue.getD default
      | some key =>
        match host.fernet.decrypt key row.value with
        | some text => text
        -- it raised: a warning, and on as if there were no row
        | none => envValue.getD default

inductive Source
  | dashboard
  | env
  | default
  deriving DecidableEq

def source (host : Host) (rows : Dict Str Row) (name : Str) : Source :=
  if (rows.get? name).isSome then .dashboard
  else if Str.strip ((host.environ name).getD []) ≠ [] then .env
  else .default

/-! ## From where a value comes -/

section Places

variable {host : Host} {rows : Dict Str Row} {name default : Str}

/-- The value of a row, unless it is a secret that no key decrypts. -/
def Row.reveal (host : Host) (row : Row) : Option Str :=
  if row.secret then (fernetKey host).bind (host.fernet.decrypt · row.value) else some row.value

/-- The value the dashboard has for a name. -/
def dashboardValue (host : Host) (rows : Dict Str Row) (name : Str) : Option Str :=
  (rows.get? name).bind (Row.reveal host)

/-- A value comes from the first place that has one: the dashboard, the environment, the default. -/
inductive Supplies (host : Host) (rows : Dict Str Row) (name default : Str) : Source → Str → Prop
  | dashboard {v : Str} (h : dashboardValue host rows name = some v) :
      Supplies host rows name default .dashboard v
  | env {v : Str} (h : dashboardValue host rows name = none) (henv : host.environ name = some v) :
      Supplies host rows name default .env v
  | default (h : dashboardValue host rows name = none) (henv : host.environ name = none) :
      Supplies host rows name default .default default

/-- `source` names the place from where the value of `get` comes. -/
def Agrees (host : Host) (rows : Dict Str Row) (name : Str) : Prop :=
  ∀ (default : Str) (o : Source),
    source host rows name = o ↔ Supplies host rows name default o (get host rows name default)

theorem Supplies.source_unique {o o' : Source} {v v' : Str}
    (h : Supplies host rows name default o v) (h' : Supplies host rows name default o' v') :
    o = o' := by
  cases h with
  | dashboard h =>
    cases h' with
    | dashboard _ => rfl
    | env h' _ => exact absurd (h.symm.trans h') nofun
    | default h' _ => exact absurd (h.symm.trans h') nofun
  | env h henv =>
    cases h' with
    | dashboard h' => exact absurd (h.symm.trans h') nofun
    | env _ _ => rfl
    | default _ henv' => exact absurd (henv.symm.trans henv') nofun
  | default h henv =>
    cases h' with
    | dashboard h' => exact absurd (h.symm.trans h') nofun
    | env _ henv' => exact absurd (henv.symm.trans henv') nofun
    | default _ _ => rfl

theorem get_of_dashboardValue {v : Str} (h : dashboardValue host rows name = some v) :
    get host rows name default = v := by
  obtain ⟨row, hrow, hv⟩ := Option.bind_eq_some_iff.1 h
  rw [get]
  simp only [hrow]
  rw [Row.reveal] at hv
  by_cases hsecret : row.secret = true
  · rw [if_pos hsecret] at hv
    obtain ⟨key, hkey, htext⟩ := Option.bind_eq_some_iff.1 hv
    simp [hsecret, hkey, htext]
  · rw [if_neg hsecret] at hv
    rw [if_pos hsecret]
    exact Option.some.inj hv

theorem get_of_dashboardValue_eq_none (h : dashboardValue host rows name = none) :
    get host rows name default = (host.environ name).getD default := by
  rw [get]
  cases hrow : rows.get? name with
  | none => rfl
  | some row =>
    have hv : row.reveal host = none := by simpa [dashboardValue, hrow] using h
    rw [Row.reveal] at hv
    have hsecret : row.secret = true := by
      by_contra hsecret
      rw [if_neg hsecret] at hv
      cases hv
    rw [if_pos hsecret] at hv
    simp only [hsecret, not_true_eq_false, if_false]
    cases hkey : fernetKey host with
    | none => rfl
    | some key =>
      have hdecrypt : host.fernet.decrypt key row.value = none := by simpa [hkey] using hv
      simp only [hdecrypt]

/-- The value of `get` comes from one of the three places. -/
theorem get_supplied (host : Host) (rows : Dict Str Row) (name default : Str) :
    ∃ o, Supplies host rows name default o (get host rows name default) := by
  cases h : dashboardValue host rows name with
  | some v =>
    rw [get_of_dashboardValue h]
    exact ⟨.dashboard, .dashboard h⟩
  | none =>
    rw [get_of_dashboardValue_eq_none h]
    cases henv : host.environ name with
    | some v => exact ⟨.env, .env h henv⟩
    | none => exact ⟨.default, .default h henv⟩

/-- It is enough to find the place the value comes from. -/
theorem agrees_iff_supplies : Agrees host rows name ↔
    ∀ default, Supplies host rows name default (source host rows name)
      (get host rows name default) := by
  refine ⟨fun h default => (h default _).1 rfl, fun h default o => ⟨fun ho => ho ▸ h default, ?_⟩⟩
  exact fun ho => (h default).source_unique ho

/-- The row can be read: it is no secret, or the key decrypts it. -/
def Row.Readable (host : Host) (row : Row) : Prop :=
  row.secret = false ∨
    ∃ key text, fernetKey host = some key ∧ host.fernet.decrypt key row.value = some text

theorem Row.readable_iff {row : Row} : row.Readable host ↔ ∃ v, row.reveal host = some v := by
  rw [Row.Readable, Row.reveal]
  by_cases hsecret : row.secret = true
  · rw [if_pos hsecret]
    simp only [hsecret, Bool.true_eq_false, false_or, Option.bind_eq_some_iff]
    exact ⟨fun ⟨key, text, hkey, htext⟩ => ⟨text, key, hkey, htext⟩,
      fun ⟨text, key, hkey, htext⟩ => ⟨key, text, hkey, htext⟩⟩
  · rw [if_neg hsecret]
    simp [hsecret]

theorem source_of_get? {row : Row} (hrow : rows.get? name = some row) :
    source host rows name = .dashboard := by
  rw [source, if_pos (by rw [hrow]; rfl)]

/-- The two agree on a name with a row just where the row can be read, and on a name without one
just where the variable of the environment, if there is one, is not blank. -/
theorem agrees_iff (host : Host) (rows : Dict Str Row) (name : Str) :
    Agrees host rows name ↔
      (∀ row, rows.get? name = some row → row.Readable host) ∧
        (rows.get? name = none → ∀ v, host.environ name = some v → Str.strip v ≠ []) := by
  rw [agrees_iff_supplies]
  cases hrow : rows.get? name with
  | some row =>
    have hvalue : dashboardValue host rows name = row.reveal host := by
      rw [dashboardValue, hrow, Option.bind_some]
    rw [source_of_get? hrow]
    constructor
    · intro h
      refine ⟨fun row' hrow' => ?_, nofun⟩
      cases hrow'
      cases h [] with
      | dashboard hv => exact Row.readable_iff.2 ⟨_, hvalue ▸ hv⟩
    · rintro ⟨h, -⟩ default
      obtain ⟨v, hv⟩ := Row.readable_iff.1 (h row rfl)
      rw [get_of_dashboardValue (hvalue.trans hv)]
      exact .dashboard (hvalue.trans hv)
  | none =>
    have hvalue : dashboardValue host rows name = none := by rw [dashboardValue, hrow]; rfl
    have hsource : source host rows name =
        if Str.strip ((host.environ name).getD []) ≠ [] then .env else .default := by
      rw [source, if_neg (by rw [hrow]; nofun)]
    rw [hsource]
    simp only [get_of_dashboardValue_eq_none hvalue]
    cases henv : host.environ name with
    | some v =>
      rw [Option.getD_some]
      constructor
      · intro h
        refine ⟨nofun, fun _ v' hv' hblank => ?_⟩
        cases hv'
        rw [if_neg (not_not.2 hblank)] at h
        exact absurd ((h []).source_unique (.env hvalue henv)) nofun
      · rintro ⟨-, h⟩ default
        rw [if_pos (h trivial v rfl)]
        exact .env hvalue henv
    | none =>
      refine ⟨fun _ => ⟨nofun, fun _ => nofun⟩, fun _ default => ?_⟩
      exact .default hvalue henv

end Places

namespace Sample

/-- A stand-in for the encryption: a token is the key, a dot and the text. -/
def fernet : Fernet where
  isKey key := key ≠ []
  encrypt key _ text := some (key ++ '.' :: text)
  decrypt key token := if key ++ ['.'] <+: token then some (token.drop (key.length + 1)) else none
  decrypt_encrypt := by
    intro key _ text token h
    cases h
    have hdrop : (key ++ '.' :: text).drop (key.length + 1) = text := by
      simp [List.drop_append]
    rw [if_pos ⟨text, by simp⟩, hdrop]

/-- A process with these variables. -/
def host (environ : List (Str × Str)) : Host where
  environ name := environ.lookup name
  unicode := .ascii
  isDigit s := s ≠ [] ∧ s.all Char.isDigit
  int s := some (s.foldl (fun n c => 10 * n + (c.toNat - '0'.toNat)) 0 : ℕ)
  fernet := fernet

/-- A secret saved under the key `old`. -/
def saved : Dict Str Row :=
  Dict.empty.set "OPENAI_API_KEY".toList ⟨"old.sk-abc".toList, true⟩

def rotated : List (Str × Str) := [("ADDON_ENCRYPTION_KEY".toList, "new".toList)]

/-- After a change of the encryption key `get` falls back to the default, and `source` still says
that the value is the one of the dashboard. -/
theorem undecryptable_disagrees :
    source (host rotated) saved "OPENAI_API_KEY".toList = .dashboard ∧
      get (host rotated) saved "OPENAI_API_KEY".toList "none".toList = "none".toList ∧
      ¬ Agrees (host rotated) saved "OPENAI_API_KEY".toList := by
  refine ⟨by decide, by decide, fun h => ?_⟩
  have hdash := (h "none".toList .dashboard).1 (by decide)
  cases hdash with
  | dashboard hv =>
    have hnone : dashboardValue (host rotated) saved "OPENAI_API_KEY".toList = none := by decide
    rw [hnone] at hv
    cases hv

/-- A blank variable is the value of `get`, and no variable to `source`. -/
theorem blank_disagrees :
    get (host [("OLLAMA_MODEL".toList, " ".toList)]) .empty "OLLAMA_MODEL".toList
        "llama3".toList = " ".toList ∧
      source (host [("OLLAMA_MODEL".toList, " ".toList)]) .empty "OLLAMA_MODEL".toList =
        .default := by
  decide

end Sample

end RagLeap.Settings
