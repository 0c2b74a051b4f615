import RagLeap.Core.Statements

/-!
# Sensitive roles

`is_sensitive_role` of `core/employees/sensitivity.py`. `sensitiveRole` is the rule itself, on a
role's name and its row; `isSensitiveRole` applies it to the row it reads, and to the name alone
when the row cannot be read.
-/

namespace RagLeap.Core

def SENSITIVE_DOMAIN_ROLES : List Str :=
  ["legal_intake", "healthcare_intake", "insurance_agent", "compliance_officer",
    "veterinary_intake", "tax_preparation_intake", "immigration_intake"].map String.toList

def SENSITIVE_MARKERS : List Str :=
  ["legal", "lawyer", "attorney", "law", "medical", "medicine", "health", "healthcare",
    "clinical", "doctor", "patient", "pharmacy", "veterinary", "immigration", "visa", "tax",
    "insurance", "compliance", "regulatory"].map String.toList

/-- The names in `DEFAULT_ROLES`. -/
def builtinNames : List Str :=
  ["manager", "secretary", "ceo", "sales", "support", "hr", "finance", "marketing",
    "operations", "recruiter", "real_estate_agent", "hospitality_agent", "collections_agent",
    "procurement_agent", "inventory_agent", "logistics_agent", "it_helpdesk",
    "compliance_officer", "content_writer", "social_media_manager", "data_analyst",
    "legal_intake", "healthcare_intake", "event_planner", "travel_agent", "insurance_agent",
    "fitness_studio_agent", "tutoring_agent", "auto_service_agent", "veterinary_intake",
    "tax_preparation_intake", "immigration_intake", "volunteer_coordinator",
    "membership_agent", "admissions_agent", "vehicle_sales_agent", "photography_booking_agent",
    "salon_spa_agent", "warehouse_operations_agent", "b2b_lead_qualifier",
    "returns_refunds_agent", "property_management_agent", "franchise_inquiry_agent",
    "warranty_claims_agent", "coworking_space_agent", "delivery_dispatch_agent"].map String.toList

/-- The names of a comma separated setting, in lower case. -/
def envNames (env : Env) (value : Str) : List Str :=
  ((value.splitOn ',').filter fun x => Str.strip x ≠ []).map fun x =>
    env.unicode.lower (Str.strip x)

def isTokenChar (c : Char) : Bool := ('a' ≤ c && c ≤ 'z') || ('0' ≤ c && c ≤ '9')

/-- The maximal runs of `a`-`z` and `0`-`9` in the lower-cased text. -/
def tokens (env : Env) (text : Str) : List Str :=
  ((env.unicode.lower text).splitOnP fun c => ! isTokenChar c).filter (· ≠ [])

/-- What the name settles on its own; `none` if it takes the tokens. -/
def sensitiveName (env : Env) (name : Str) : Option Bool :=
  let key := env.unicode.lower name
  if name ∈ SENSITIVE_DOMAIN_ROLES then some true
  else if key ∈ envNames env env.SENSITIVE_ROLES_EXTRA then some true
  else if name ∈ builtinNames then some false
  else if key ∈ envNames env env.SENSITIVE_ROLES_REVIEWED_SAFE then some false
  else none

/-- The tokens of a name and its row. -/
def roleTokens (env : Env) (name : Str) (row : Option RoleRow) : List Str :=
  tokens env name ++
    match row with
    | some row => tokens env row.displayName ++ row.skillTags.flatMap (tokens env)
    | none => []

/-- The sensitivity rule on a name and the row stored for it. -/
def sensitiveRole (env : Env) (name : Str) (row : Option RoleRow) : Bool :=
  (sensitiveName env name).getD ((roleTokens env name row).any (· ∈ SENSITIVE_MARKERS))

def isSensitiveRole (env : Env) (role : Str) : Proc Statements Bool :=
  if role = [] then pure false
  else
    let name := Str.strip role
    match sensitiveName env name with
    | some b => pure b
    | none => do
      match ← exec (.readRole name) with
      | .ok row => pure (sensitiveRole env name row)
      | _ => pure (sensitiveRole env name none)

/-- A marker in the name alone makes the role sensitive under every row. -/
theorem sensitiveRole_of_name {env : Env} {name : Str} (h : sensitiveRole env name none = true)
    (row : Option RoleRow) : sensitiveRole env name row = true := by
  unfold sensitiveRole at h ⊢
  cases hn : sensitiveName env name with
  | some b => simpa [hn] using h
  | none =>
    simp only [hn, Option.getD_none] at h ⊢
    obtain ⟨t, ht, hm⟩ := List.any_eq_true.1 h
    refine List.any_eq_true.2 ⟨t, ?_, hm⟩
    simp only [roleTokens, List.append_nil] at ht
    exact List.mem_append_left _ ht

end RagLeap.Core
