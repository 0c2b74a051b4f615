import Mathlib
import RagLeap.Core.Settings
import RagLeap.Foundations.Attempt
import RagLeap.Foundations.Decimal
import RagLeap.Foundations.Raising

/-!
# Saving settings

`set_many` of `core/settings.py` checks a batch of settings, encrypts the secrets among them and
writes everything in one transaction; `invalid_names` and `needs_encryption` are what the endpoint
asks before. `Refuses` lists what stands in the way of a single setting, wherever it is found: its
name and value are checked before the transaction, its encryption in the middle of it.

`setMany_all_or_nothing`: a batch with a refused setting leaves the table as it was; any other is
read back in full, from the next call on, and touches no other row.
-/

namespace RagLeap.Settings

/-! ## The settings there are -/

/-- The keys of `PROVIDER_BASE_URLS` in `core/generation.py`. -/
def PROVIDER_BASE_URLS : List Str :=
  ["openai", "mistral", "groq", "together", "openrouter", "ollama", "deepseek", "demonroute", "xai",
    "cohere", "perplexity", "qwen", "moonshot", "zhipu", "yi", "baidu", "minimax",
    "custom"].map String.toList

/-- The keys of `OPENAI_COMPATIBLE` in `core/embedding.py`. -/
def OPENAI_COMPATIBLE : List Str :=
  ["ollama", "openai", "mistral", "together", "openrouter", "qwen", "zhipu",
    "custom"].map String.toList

/-- `p.upper() + suffix` for the name of a provider. -/
def providerName (p : Str) (ending : String) : Str := p.map Char.toUpper ++ ending.toList

/-- `_spec`: which of the settings are secret. -/
def spec : Dict Str Bool :=
  Dict.ofPairs
    ((["LLM_PROVIDER", "LLM_FALLBACK_PROVIDERS", "GEMINI_CHAT_MODEL", "GEMINI_EMBEDDING_MODEL",
        "EMBEDDING_PROVIDER", "EMBEDDING_DIMENSIONS", "ANTHROPIC_MODEL"].map fun name =>
          (name.toList, false)) ++
      [("GEMINI_API_KEY".toList, true), ("ANTHROPIC_API_KEY".toList, true)] ++
      (PROVIDER_BASE_URLS.flatMap fun p =>
        [(providerName p "_API_KEY", true), (providerName p "_MODEL", false),
          (providerName p "_BASE_URL", false)]) ++
      OPENAI_COMPATIBLE.flatMap fun p =>
        [(providerName p "_API_KEY", true), (providerName p "_BASE_URL", false),
          (providerName p "_EMBEDDING_MODEL", false)])

def llmProviders : List Str := "gemini".toList :: "anthropic".toList :: PROVIDER_BASE_URLS

def embeddingProviders : List Str := "gemini".toList :: OPENAI_COMPATIBLE

/-! ## The checks -/

def MAX_VALUE_LENGTH : ℕ := 512

/-- `_CONTROL_CHARS`. -/
def isControl (c : Char) : Bool := c.toNat ≤ 0x1f || c.toNat = 0x7f

/-- The values of a batch by the tests the code makes of them. -/
inductive Raw
  | none
  | text (s : Str)
  | int (n : ℤ)
  | bool (b : Bool)
  | other

/-- `raw is None or (isinstance(raw, str) and not raw.strip())`. -/
def Raw.blank : Raw → Bool
  | .none => true
  | .text s => Str.strip s = []
  | _ => false

/-- `str(raw)` of a text or a number: an integer of over 4300 digits has no decimal form. -/
def Raw.str : Raw → Except Str Str
  | .text s => .ok s
  | .int n =>
    if 4300 < (Str.ofNat n.natAbs).length then
      .error ("Exceeds the limit (4300 digits) for integer string conversion; " ++
        "use sys.set_int_max_str_digits() to increase the limit").toList
    else .ok (Str.ofInt n)
  | _ => .error "Setting values must be text or numbers.".toList

/-- `re.match(r"^https?://\S+$", value)` for a value without a line break. -/
def isHttpUrl (value : Str) : Bool :=
  ["http://".toList, "https://".toList].any fun scheme =>
    decide (scheme <+: value) && decide (value.drop scheme.length ≠ []) &&
      (value.drop scheme.length).all fun c => !Str.isSpace c

/-- `value.split("//", 1)[1].split("/", 1)[0]` for a URL as above, whose first slash is that of the
`//`. -/
def authority (value : Str) : Str :=
  ((value.dropWhile (· ≠ '/')).drop 2).takeWhile (· ≠ '/')

/-- `_validate` for the name of a provider. -/
def checkProvider (host : Host) (name value : Str) (allowed : List Str) : Except Str Str :=
  let value := host.unicode.lower value
  if value ∈ allowed then .ok value
  else .error ("Unknown provider for ".toList ++ name ++ ".".toList)

/-- `_validate` for the list of fallbacks. -/
def checkFallbacks (host : Host) (value : Str) : Except Str Str :=
  let parts := ((value.splitOn ',').filter fun p => Str.strip p ≠ []).map fun p =>
    host.unicode.lower (Str.strip p)
  if parts.all (· ∈ llmProviders) then .ok ([','].intercalate parts)
  else .error "Unknown provider in LLM_FALLBACK_PROVIDERS.".toList

/-- `_validate` for the dimensions; `int` raises on some of the digits that `isdigit` takes. -/
def checkDimensions (host : Host) (value : Str) : Except Str Str :=
  let why := "EMBEDDING_DIMENSIONS must be a whole number from 1 to 16000.".toList
  if ¬ host.isDigit value then .error why
  else
    match host.int value with
    | none => .error ("invalid literal for int() with base 10: '".toList ++ value ++ "'".toList)
    | some n => if 1 ≤ n ∧ n ≤ 16000 then .ok value else .error why

/-- `_validate` for a base URL. -/
def checkBaseUrl (name value : Str) : Except Str Str :=
  if ¬ isHttpUrl value then .error (name ++ " must start with http:// or https://".toList)
  else if '@' ∈ authority value then
    .error (name ++ " must not contain a username or password.".toList)
  else .ok value

/-- `_validate`: the value to store, or the text of the error. -/
def validate (host : Host) (name : Str) (raw : Raw) : Except Str Str := do
  let value := Str.strip (← raw.str)
  if MAX_VALUE_LENGTH < value.length ∨ value.any isControl then
    .error "Invalid value: too long or contains control characters.".toList
  else if name = "LLM_PROVIDER".toList then checkProvider host name value llmProviders
  else if name = "EMBEDDING_PROVIDER".toList then checkProvider host name value embeddingProviders
  else if name = "LLM_FALLBACK_PROVIDERS".toList then checkFallbacks host value
  else if name = "EMBEDDING_DIMENSIONS".toList then checkDimensions host value
  else if "_BASE_URL".toList <:+ name then checkBaseUrl name value
  else .ok value

/-- What `set_many` is to do about a setting: store a value, or remove the row. -/
def cleanValue (host : Host) (name : Str) (raw : Raw) : Except Str (Option Str) :=
  if (spec.get? name).isNone then .error "Unknown setting.".toList
  else if raw.blank then .ok none
  else (validate host name raw).map some

def isSecret (name : Str) : Bool := spec.get? name = some true

/-- `set_many` up to the transaction. -/
def prepare (host : Host) (updates : Dict Str Raw) : Except Str (List (Str × Option Str)) := do
  let clean ← updates.items.mapM fun e => (cleanValue host e.1 e.2).map (e.1, ·)
  if clean.any (fun e => isSecret e.1 && e.2.isSome) && (fernetKey host).isNone then
    .error "ADDON_ENCRYPTION_KEY is not set, so secrets cannot be stored.".toList
  else .ok clean

def invalidNames (host : Host) (updates : Dict Str Raw) : List Str :=
  updates.items.filterMap fun e =>
    if (spec.get? e.1).isNone then some (e.1.take 64)
    else if e.2.blank then none
    else match validate host e.1 e.2 with
      | .error _ => some e.1
      | .ok _ => none

def needsEncryption (updates : Dict Str Raw) : Bool :=
  updates.items.any fun e => isSecret e.1 && !e.2.blank

def encryptionReady (host : Host) : Bool := (fernetKey host).isSome

/-! ## The table and its cache -/

/-- The rows read last, and when. The clock counts nanoseconds. -/
structure Cache where
  readAt : ℤ
  rows : Dict Str Row

def CACHE_SECONDS : ℤ := 5 * 10 ^ 9

/-- `-1e9` seconds. -/
def NEVER : ℤ := -10 ^ 18

structure World where
  table : Dict Str Row
  cache : Cache

/-- `invalidate`. -/
def World.invalidate (w : World) : World := { w with cache := { w.cache with readAt := NEVER } }

/-- `_rows` at a time; with the database out of reach there are no rows. -/
def World.rows (reachable : Bool) (now : ℕ) (w : World) : Dict Str Row × World :=
  if now - w.cache.readAt < CACHE_SECONDS then (w.cache.rows, w)
  else
    let rows := if reachable then w.table else .empty
    (rows, { w with cache := ⟨now, rows⟩ })

/-- `get` at a time. -/
def World.get (host : Host) (now : ℕ) (w : World) (name default : Str) : Str :=
  Settings.get host (w.rows true now).1 name default

/-- The statement for one setting; `none`: the encryption raised. -/
def write (host : Host) (random : Str → Str) (table : Dict Str Row) (e : Str × Option Str) :
    Option (Dict Str Row) :=
  match e.2 with
  | none => some (table.erase e.1)
  | some value =>
    if isSecret e.1 then do
      let key ← fernetKey host
      let stored ← host.fernet.encrypt key (random e.1) value
      some (table.set e.1 ⟨stored, true⟩)
    else some (table.set e.1 ⟨value, false⟩)

inductive Failure
  | valueError (message : Str)
  /-- An exception of the encryption or the database. -/
  | other

/-- `random` gives the bytes a token is made with, and `fate` how the transaction goes. -/
def setMany (host : Host) (random : Str → Str) (fate : Fate) (updates : Dict Str Raw)
    (w : World) : Except Failure (List Str) × World :=
  match prepare host updates with
  | .error message => (.error (.valueError message), w)
  | .ok clean =>
    match Attempt.commit fate
        (fun table => (clean.foldlM (write host random) table).map ((), ·)) w.table with
    | (none, table) => (.error .other, { w with table })
    | (some (), table) =>
      (.ok ((clean.map Prod.fst).insertionSort (· ≤ ·)), { w with table }.invalidate)

/-! ## What stands in the way of a setting -/

section Updates

variable {host : Host} {random : Str → Str} {updates : Dict Str Raw} {w : World} {name : Str}
  {raw : Raw} {table table' : Dict Str Row} {clean : List (Str × Option Str)}

/-- The name is unknown, the value is invalid, or it is a secret that cannot be encrypted. -/
inductive Refuses (host : Host) (random : Str → Str) (name : Str) (raw : Raw) : Prop
  | unknown (h : spec.get? name = none)
  | invalid {message : Str} (hblank : raw.blank = false)
      (h : validate host name raw = .error message)
  | unencrypted {value : Str} (hsecret : spec.get? name = some true) (hblank : raw.blank = false)
      (hvalue : validate host name raw = .ok value)
      (h : ∀ key, fernetKey host = some key → host.fernet.encrypt key (random name) value = none)

theorem cleanValue_cases (host : Host) (name : Str) (raw : Raw) :
    (spec.get? name = none ∧ ∃ message, cleanValue host name raw = .error message) ∨
      (raw.blank = false ∧ ∃ message, validate host name raw = .error message ∧
        cleanValue host name raw = .error message) ∨
      (raw.blank = true ∧ cleanValue host name raw = .ok none) ∨
      raw.blank = false ∧ ∃ value, validate host name raw = .ok value ∧
        cleanValue host name raw = .ok (some value) := by
  rw [cleanValue]
  cases hspec : spec.get? name with
  | none => exact .inl ⟨rfl, _, rfl⟩
  | some secret =>
    rw [if_neg (by nofun)]
    cases hblank : raw.blank with
    | true => exact .inr (.inr (.inl ⟨rfl, rfl⟩))
    | false =>
      rw [if_neg (by nofun)]
      cases hvalue : validate host name raw with
      | error message => exact .inr (.inl ⟨rfl, message, rfl, rfl⟩)
      | ok value => exact .inr (.inr (.inr ⟨rfl, value, rfl, rfl⟩))

/-- One entry of a batch and what is to be done about it. -/
def Cleans (host : Host) (e : Str × Raw) (c : Str × Option Str) : Prop :=
  c.1 = e.1 ∧ cleanValue host e.1 e.2 = .ok c.2

variable (host) in
theorem cleanEntry_eq_ok {e : Str × Raw} {c : Str × Option Str} :
    (cleanValue host e.1 e.2).map (e.1, ·) = .ok c ↔ Cleans host e c := by
  obtain ⟨name, value⟩ := c
  rw [Cleans]
  cases cleanValue host e.1 e.2 with
  | error why => simp [Except.map]
  | ok v =>
    simp only [Except.map, Except.ok.injEq, Prod.mk.injEq]
    exact and_congr_left' eq_comm

theorem keys_of_cleans {l : List (Str × Raw)} (h : List.Forall₂ (Cleans host) l clean) :
    clean.map Prod.fst = l.map Prod.fst := by
  induction h with
  | nil => rfl
  | cons hc _ ih => rw [List.map_cons, List.map_cons, hc.1, ih]

/-- An entry that passes the checks is refused only if it cannot be encrypted. -/
theorem refuses_iff_of_cleans {e : Str × Raw} {c : Str × Option Str} (h : Cleans host e c) :
    Refuses host random e.1 e.2 ↔ isSecret c.1 = true ∧ ∃ value, c.2 = some value ∧
      ∀ key, fernetKey host = some key → host.fernet.encrypt key (random c.1) value = none := by
  obtain ⟨hname, hok⟩ := h
  rw [hname, isSecret, decide_eq_true_iff]
  rcases cleanValue_cases host e.1 e.2 with
    ⟨-, message, herror⟩ | ⟨-, message, -, herror⟩ | ⟨hblank, hnone⟩ | ⟨hblank, value, hv, hsome⟩
  · rw [hok] at herror; cases herror
  · rw [hok] at herror; cases herror
  · -- a blank value is to be removed
    rw [hok] at hnone
    rw [Except.ok.inj hnone]
    refine iff_of_false (fun hrefuses => ?_) fun ⟨_, _, hsome, _⟩ => nomatch hsome
    cases hrefuses with
    | unknown h =>
      rw [cleanValue, h] at hok
      cases hok
    | invalid hblank' _ => rw [hblank] at hblank'; cases hblank'
    | unencrypted _ hblank' _ _ => rw [hblank] at hblank'; cases hblank'
  · rw [hok] at hsome
    rw [Except.ok.inj hsome]
    constructor
    · intro hrefuses
      cases hrefuses with
      | unknown h =>
        rw [cleanValue, h] at hok
        cases hok
      | invalid _ h => rw [hv] at h; cases h
      | unencrypted hsecret _ h hencrypt =>
        rw [hv] at h
        cases h
        exact ⟨hsecret, value, rfl, hencrypt⟩
    · rintro ⟨hsecret, value', hvalue, hencrypt⟩
      cases hvalue
      exact .unencrypted hsecret hblank hv hencrypt

theorem prepare_of_clean
    (h : (updates.items.mapM fun e => (cleanValue host e.1 e.2).map (e.1, ·)) = .ok clean) :
    prepare host updates =
      if (clean.any (fun e => isSecret e.1 && e.2.isSome) && (fernetKey host).isNone) = true then
        .error "ADDON_ENCRYPTION_KEY is not set, so secrets cannot be stored.".toList
      else .ok clean := by
  rw [prepare, h]
  rfl

/-- Before the transaction the batch is refused for the name or the value of an entry, for a secret
without a key, or not at all. -/
theorem prepare_cases (host : Host) (random : Str → Str) (updates : Dict Str Raw) :
    (∃ message, prepare host updates = .error message ∧
      ∃ e ∈ updates.items, Refuses host random e.1 e.2) ∨
      ∃ clean, prepare host updates = .ok clean ∧
        List.Forall₂ (Cleans host) updates.items clean := by
  rcases mapM_except_cases (fun e : Str × Raw => (cleanValue host e.1 e.2).map (e.1, ·))
    updates.items with ⟨e, he, why, hwhy, hl⟩ | ⟨clean, hl, hall⟩
  · refine .inl ⟨why, by rw [prepare, hl]; rfl, e, he, ?_⟩
    rcases cleanValue_cases host e.1 e.2 with
      ⟨hspec, -⟩ | ⟨hblank, message, hvalue, -⟩ | ⟨-, hok⟩ | ⟨-, value, -, hok⟩
    · exact .unknown hspec
    · exact .invalid hblank hvalue
    · rw [hok] at hwhy; cases hwhy
    · rw [hok] at hwhy; cases hwhy
  · have hcleans := hall.imp fun _ _ => (cleanEntry_eq_ok host).1
    rw [prepare_of_clean hl]
    split_ifs with hkey
    · -- a secret to store, and no key
      rw [Bool.and_eq_true, List.any_eq_true, Option.isNone_iff_eq_none] at hkey
      obtain ⟨⟨c, hc, hsecret⟩, hnone⟩ := hkey
      obtain ⟨e, he, hec⟩ := exists_left_of_forall₂ hcleans hc
      rw [Bool.and_eq_true, Option.isSome_iff_exists] at hsecret
      obtain ⟨hsecret, value, hvalue⟩ := hsecret
      refine .inl ⟨_, rfl, e, he, (refuses_iff_of_cleans hec).2 ⟨hsecret, value, hvalue, ?_⟩⟩
      intro key hkey
      rw [hnone] at hkey
      cases hkey
    · exact .inr ⟨clean, rfl, hcleans⟩

theorem invalidNames_eq_nil_iff : invalidNames host updates = [] ↔
    ∀ e ∈ updates.items, ∃ value, cleanValue host e.1 e.2 = .ok value := by
  rw [invalidNames, List.filterMap_eq_nil_iff]
  refine forall₂_congr fun e _ => ?_
  rw [cleanValue]
  cases hspec : spec.get? e.1 with
  | none => simp
  | some secret =>
    cases hblank : e.2.blank with
    | true => simp
    | false => cases hvalue : validate host e.1 e.2 <;> simp [Except.map]

theorem secret_iff_of_cleans {e : Str × Raw} {c : Str × Option Str} (h : Cleans host e c) :
    (isSecret c.1 && c.2.isSome) = (isSecret e.1 && !e.2.blank) := by
  obtain ⟨hname, hok⟩ := h
  rw [hname]
  rcases cleanValue_cases host e.1 e.2 with
    ⟨-, message, herror⟩ | ⟨-, message, -, herror⟩ | ⟨hblank, hnone⟩ | ⟨hblank, value, -, hsome⟩
  · rw [hok] at herror; cases herror
  · rw [hok] at herror; cases herror
  · rw [hok] at hnone
    rw [Except.ok.inj hnone, hblank]
    rfl
  · rw [hok] at hsome
    rw [Except.ok.inj hsome, hblank]
    rfl

theorem any_secret_of_cleans {l : List (Str × Raw)} (h : List.Forall₂ (Cleans host) l clean) :
    (clean.any fun c => isSecret c.1 && c.2.isSome) = l.any fun e => isSecret e.1 && !e.2.blank := by
  induction h with
  | nil => rfl
  | cons hec _ ih => rw [List.any_cons, List.any_cons, secret_iff_of_cleans hec, ih]

/-- What the endpoint asks beforehand is what `set_many` checks before the transaction. -/
theorem prepare_ok_iff : (∃ clean, prepare host updates = .ok clean) ↔
    invalidNames host updates = [] ∧
      (needsEncryption updates = true → encryptionReady host = true) := by
  rw [invalidNames_eq_nil_iff]
  rcases mapM_except_cases (fun e : Str × Raw => (cleanValue host e.1 e.2).map (e.1, ·))
    updates.items with ⟨e, he, why, hwhy, hl⟩ | ⟨clean, hl, hall⟩
  · refine iff_of_false (fun ⟨clean, h⟩ => ?_) fun ⟨hall, _⟩ => ?_
    · rw [prepare, hl] at h
      cases h
    · obtain ⟨value, hvalue⟩ := hall e he
      rw [hvalue] at hwhy
      cases hwhy
  · have hcleans := hall.imp fun _ _ => (cleanEntry_eq_ok host).1
    have hvalues : ∀ e ∈ updates.items, ∃ value, cleanValue host e.1 e.2 = .ok value := by
      intro e he
      obtain ⟨c, -, -, hclean⟩ := exists_right_of_forall₂ hcleans he
      exact ⟨c.2, hclean⟩
    rw [prepare_of_clean hl, any_secret_of_cleans hcleans, encryptionReady, and_iff_right hvalues,
      ← needsEncryption]
    cases needsEncryption updates <;> cases fernetKey host <;> simp

/-! ## The statements -/

/-- What a statement leaves under the name of its setting. -/
inductive Leaves (host : Host) (random : Str → Str) (c : Str × Option Str) : Option Row → Prop
  | removed (h : c.2 = none) : Leaves host random c none
  | plain {value : Str} (hplain : isSecret c.1 = false) (h : c.2 = some value) :
      Leaves host random c (some ⟨value, false⟩)
  | secret {value key stored : Str} (hsecret : isSecret c.1 = true) (h : c.2 = some value)
      (hkey : fernetKey host = some key)
      (hstored : host.fernet.encrypt key (random c.1) value = some stored) :
      Leaves host random c (some ⟨stored, true⟩)

/-- A statement touches the row of its setting only. -/
theorem write_get? {c : Str × Option Str} (h : write host random table c = some table') :
    Leaves host random c (table'.get? c.1) ∧
      ∀ k, k ≠ c.1 → table'.get? k = table.get? k := by
  rw [write] at h
  cases hvalue : c.2 with
  | none =>
    simp only [hvalue, Option.some.injEq] at h
    subst h
    refine ⟨?_, fun k hk => by rw [Dict.get?_erase, if_neg hk]⟩
    rw [Dict.get?_erase, if_pos rfl]
    exact .removed hvalue
  | some value =>
    simp only [hvalue] at h
    cases hsecret : isSecret c.1 with
    | false =>
      rw [hsecret, if_neg (by nofun), Option.some.injEq] at h
      subst h
      refine ⟨?_, fun k hk => by rw [Dict.get?_set, if_neg hk]⟩
      rw [Dict.get?_set, if_pos rfl]
      exact .plain hsecret hvalue
    | true =>
      rw [hsecret, if_pos rfl] at h
      obtain ⟨key, hkey, h⟩ := Option.bind_eq_some_iff.1 h
      obtain ⟨stored, hstored, h⟩ := Option.bind_eq_some_iff.1 h
      cases h
      refine ⟨?_, fun k hk => by rw [Dict.get?_set, if_neg hk]⟩
      rw [Dict.get?_set, if_pos rfl]
      exact .secret hsecret hvalue hkey hstored

/-- A run of statements, each for another setting. -/
theorem writeAll_get? (hkeys : (clean.map Prod.fst).Nodup)
    (h : clean.foldlM (write host random) table = some table') :
    (∀ c ∈ clean, Leaves host random c (table'.get? c.1)) ∧
      ∀ k, k ∉ clean.map Prod.fst → table'.get? k = table.get? k := by
  induction clean generalizing table with
  | nil =>
    cases h
    exact ⟨nofun, fun _ _ => rfl⟩
  | cons c clean ih =>
    rw [List.map_cons, List.nodup_cons] at hkeys
    rw [List.foldlM_cons] at h
    obtain ⟨table₁, hc, hrest⟩ := Option.bind_eq_some_iff.1 h
    obtain ⟨hleaves, hother⟩ := write_get? hc
    obtain ⟨hall, hrest⟩ := ih hkeys.2 hrest
    constructor
    · intro c' hc'
      rcases List.mem_cons.1 hc' with rfl | hc'
      · -- the later statements are for other settings
        rw [hrest c'.1 hkeys.1]
        exact hleaves
      · exact hall c' hc'
    · intro k hk
      rw [List.map_cons, List.mem_cons, not_or] at hk
      rw [hrest k hk.2, hother k hk.1]

/-- A statement raises whatever the table: it is to store a secret that cannot be encrypted. -/
theorem write_eq_none_iff {c : Str × Option Str} : write host random table c = none ↔
    isSecret c.1 = true ∧ ∃ value, c.2 = some value ∧
      ∀ key, fernetKey host = some key → host.fernet.encrypt key (random c.1) value = none := by
  rw [write]
  cases hvalue : c.2 with
  | none => simp
  | some value =>
    cases hsecret : isSecret c.1 with
    | false => simp
    | true =>
      cases hkey : fernetKey host with
      | none => simp
      | some key => cases hstored : host.fernet.encrypt key (random c.1) value <;> simp [hstored]

theorem writeAll_eq_none_iff : clean.foldlM (write host random) table = none ↔
    ∃ c ∈ clean, isSecret c.1 = true ∧ ∃ value, c.2 = some value ∧
      ∀ key, fernetKey host = some key → host.fernet.encrypt key (random c.1) value = none := by
  induction clean generalizing table with
  | nil => exact iff_of_false nofun (by simp)
  | cons c clean ih =>
    rw [List.foldlM_cons, List.exists_mem_cons_iff]
    cases hc : write host random table c with
    | none => exact iff_of_true rfl (.inl (write_eq_none_iff.1 hc))
    | some table₁ =>
      have hnot := mt write_eq_none_iff.2 (show write host random table c ≠ none by rw [hc]; nofun)
      rw [or_iff_right hnot]
      exact ih

/-- A value that was written can be read: what is stored reveals it. -/
theorem get_of_leaves {c : Str × Option Str} {rows : Dict Str Row} (default : Str)
    (h : Leaves host random c (rows.get? c.1)) :
    get host rows c.1 default = c.2.getD ((host.environ c.1).getD default) := by
  generalize hrow : rows.get? c.1 = o at h
  cases h with
  | removed h =>
    rw [h, get_of_dashboardValue_eq_none (by rw [dashboardValue, hrow]; rfl)]
    rfl
  | plain _ h =>
    rw [h, get_of_dashboardValue (by rw [dashboardValue, hrow]; rfl)]
    rfl
  | @secret value key stored _ h hkey hstored =>
    have hreveal : Row.reveal host ⟨stored, true⟩ = some value := by
      rw [Row.reveal, if_pos rfl, hkey]
      exact host.fernet.decrypt_encrypt hstored
    rw [h, get_of_dashboardValue (by rw [dashboardValue, hrow, Option.bind_some, hreveal])]
    rfl

theorem get_congr {rows rows' : Dict Str Row} (h : rows.get? name = rows'.get? name)
    (default : Str) : get host rows name default = get host rows' name default := by
  rw [get, get, h]

/-! ## Reading after a save -/

/-- The world after reads at these times. -/
def World.after (w : World) (reads : List ℕ) : World :=
  reads.foldl (fun w now => (w.rows true now).2) w

/-- The cache is the table, or will not be used. -/
def World.Fresh (w : World) : Prop := w.cache.readAt = NEVER ∨ w.cache.rows = w.table

theorem rows_of_fresh (h : w.Fresh) (now : ℕ) :
    (w.rows true now).1 = w.table ∧ (w.rows true now).2.Fresh ∧
      (w.rows true now).2.table = w.table := by
  rw [World.rows]
  by_cases hcached : (now : ℤ) - w.cache.readAt < CACHE_SECONDS
  · rcases h with hnever | hrows
    · rw [hnever, NEVER, CACHE_SECONDS] at hcached
      omega
    · rw [if_pos hcached]
      exact ⟨hrows, .inr hrows, rfl⟩
  · rw [if_neg hcached]
    exact ⟨rfl, .inr rfl, rfl⟩

theorem after_of_fresh (h : w.Fresh) (reads : List ℕ) :
    (w.after reads).Fresh ∧ (w.after reads).table = w.table := by
  induction reads generalizing w with
  | nil => exact ⟨h, rfl⟩
  | cons now reads ih =>
    obtain ⟨-, hfresh, htable⟩ := rows_of_fresh h now
    obtain ⟨hfresh', htable'⟩ := ih hfresh
    exact ⟨hfresh', htable'.trans htable⟩

theorem get_after_of_fresh (h : w.Fresh) (reads : List ℕ) (now : ℕ) (name default : Str) :
    (w.after reads).get host now name default = get host w.table name default := by
  obtain ⟨hfresh, htable⟩ := after_of_fresh h reads
  rw [World.get, (rows_of_fresh hfresh now).1, htable]

/-! ## All or nothing -/

/-- A batch that passes the checks, and what the transaction makes of it. -/
theorem setMany_of_prepare (hprepare : prepare host updates = .ok clean) (fate : Fate)
    (w : World) :
    (clean.foldlM (write host random) w.table = none →
      setMany host random fate updates w = (.error .other, w)) ∧
    (∀ table, clean.foldlM (write host random) w.table = some table →
      setMany host random .passes updates w =
        (.ok ((clean.map Prod.fst).insertionSort (· ≤ ·)), { w with table }.invalidate)) := by
  constructor
  · intro hnone
    have hrefused : Attempt.commit fate
        (fun table => (clean.foldlM (write host random) table).map ((), ·)) w.table =
          (none, w.table) := Attempt.commit_refused (by rw [hnone]; rfl) fate
    rw [setMany, hprepare]
    simp only [hrefused]
  · intro table hsome
    have hpasses : Attempt.commit .passes
        (fun table => (clean.foldlM (write host random) table).map ((), ·)) w.table =
          (some (), table) := Attempt.commit_passes (by rw [hsome]; rfl)
    rw [setMany, hprepare]
    simp only [hpasses]

end Updates

/-- A batch with a setting that is unknown, invalid or cannot be encrypted raises and leaves
everything as it was. Any other goes through: whatever is read before, and at any time, `get` has
the new value of each of its settings, or falls back for one that was removed, and every other
setting is as it was in the table. -/
theorem setMany_all_or_nothing (host : Host) (random : Str → Str) (updates : Dict Str Raw)
    (w : World) :
    ((∃ e ∈ updates.items, Refuses host random e.1 e.2) →
      ∀ fate, ∃ failure, setMany host random fate updates w = (.error failure, w)) ∧
    ((¬ ∃ e ∈ updates.items, Refuses host random e.1 e.2) →
      ∃ w', setMany host random .passes updates w =
          (.ok ((updates.items.map Prod.fst).insertionSort (· ≤ ·)), w') ∧
        (∀ e ∈ updates.items, ∃ value, cleanValue host e.1 e.2 = .ok value ∧
          ∀ reads now default, (w'.after reads).get host now e.1 default =
            value.getD ((host.environ e.1).getD default)) ∧
        ∀ name, name ∉ updates.items.map Prod.fst → w'.table.get? name = w.table.get? name ∧
          ∀ reads now default, (w'.after reads).get host now name default =
            get host w.table name default) := by
  rcases prepare_cases host random updates with ⟨message, hprepare, hrefuses⟩ |
    ⟨clean, hprepare, hcleans⟩
  · refine ⟨fun _ fate => ⟨.valueError message, ?_⟩, fun hnot => absurd hrefuses hnot⟩
    rw [setMany, hprepare]
  · have hkeys := keys_of_cleans hcleans
    -- refused now is what the transaction raises about
    have hrefused : (∃ e ∈ updates.items, Refuses host random e.1 e.2) ↔
        clean.foldlM (write host random) w.table = none := by
      rw [writeAll_eq_none_iff]
      constructor
      · rintro ⟨e, he, hrefuses⟩
        obtain ⟨c, hc, hec⟩ := exists_right_of_forall₂ hcleans he
        exact ⟨c, hc, (refuses_iff_of_cleans hec).1 hrefuses⟩
      · rintro ⟨c, hc, hunencrypted⟩
        obtain ⟨e, he, hec⟩ := exists_left_of_forall₂ hcleans hc
        exact ⟨e, he, (refuses_iff_of_cleans hec).2 hunencrypted⟩
    refine ⟨fun h fate => ⟨.other, (setMany_of_prepare hprepare fate w).1 (hrefused.1 h)⟩, ?_⟩
    intro hnot
    obtain ⟨table, htable⟩ := Option.ne_none_iff_exists'.1 (mt hrefused.2 hnot)
    have hrun := (setMany_of_prepare hprepare .passes w).2 table htable
    rw [hkeys] at hrun
    obtain ⟨hleaves, hother⟩ := writeAll_get? (hkeys ▸ updates.nodup) htable
    have hfresh : ({ w with table }.invalidate : World).Fresh := .inl rfl
    refine ⟨_, hrun, fun e he => ?_, fun name hname => ?_⟩
    · obtain ⟨c, hc, hname, hclean⟩ := exists_right_of_forall₂ hcleans he
      refine ⟨c.2, hclean, fun reads now default => ?_⟩
      rw [get_after_of_fresh hfresh, ← hname]
      exact get_of_leaves default (hleaves c hc)
    · have hsame := hother name (hkeys ▸ hname)
      refine ⟨hsame, fun reads now default => ?_⟩
      rw [get_after_of_fresh hfresh]
      exact get_congr hsame default

end RagLeap.Settings
