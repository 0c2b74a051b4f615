import RagLeap.Foundations.Text

/-!
# Tenant scopes

A `Scope` is a tenant and optionally a subject, an agent and a session (`ragleap_security.scope`).
`Scope.covers` is the visibility rule: the other scope is this one or narrower. It is a preorder
on scopes (`covers_refl`, `covers_trans`), and a scope covers only scopes of its tenant.
-/

namespace RagLeap.Security

/-- The characters of a part after the first. -/
def isPartChar (c : Char) : Bool :=
  c.isAlphanum || c = '_' || c = '.' || c = ':' || c = '@' || c = '-'

/-- `_PART.match`. -/
def isPart : Str → Bool
  | [] => false
  | c :: cs => c.isAlphanum && cs.length ≤ 127 && cs.all isPartChar

/-- The parts of a scope below the tenant, in the order of `_FIELDS`. -/
inductive Field
  | subject
  | agent
  | session
  deriving DecidableEq

/-- `_FIELDS[1:]`. -/
def fields : List Field := [.subject, .agent, .session]

theorem mem_fields (f : Field) : f ∈ fields := by
  cases f <;> decide

/-- A scope; its parts passed the check of `__post_init__`. -/
@[ext]
structure Scope where
  tenant : Str
  part : Field → Option Str
  tenant_ok : isPart tenant = true
  part_ok : ∀ f v, part f = some v → isPart v = true

/-- The name of a part. -/
def Field.name : Field → Str
  | subject => "subject".toList
  | agent => "agent".toList
  | session => "session".toList

namespace Scope

/-- `key`. -/
def key (s : Scope) : Str :=
  "tenant=".toList ++ s.tenant ++
    fields.flatMap fun f =>
      match s.part f with
      | some v => '/' :: f.name ++ '=' :: v
      | none => []

/-- A scope of a whole tenant. -/
def ofTenant (tenant : Str) (h : isPart tenant = true) : Scope := ⟨tenant, fun _ => none, h, nofun⟩

instance : DecidableEq Scope := fun s t =>
  decidable_of_iff (s.tenant = t.tenant ∧ ∀ f ∈ fields, s.part f = t.part f)
    ⟨fun h => Scope.ext h.1 (funext fun f => h.2 f (mem_fields f)),
      fun h => h ▸ ⟨rfl, fun _ _ => rfl⟩⟩

/-- `covers`. -/
def covers (s other : Scope) : Bool :=
  s.tenant = other.tenant && fields.all fun f => s.part f = none || s.part f = other.part f

variable {s t u : Scope}

theorem covers_iff :
    s.covers t ↔ s.tenant = t.tenant ∧ ∀ f, s.part f = none ∨ s.part f = t.part f := by
  simp only [covers, Bool.and_eq_true, decide_eq_true_eq, List.all_eq_true, Bool.or_eq_true]
  exact and_congr_right fun _ => ⟨fun h f => h f (mem_fields f), fun h f _ => h f⟩

theorem tenant_eq_of_covers (h : s.covers t) : s.tenant = t.tenant := (covers_iff.1 h).1

theorem covers_refl (s : Scope) : s.covers s := covers_iff.2 ⟨rfl, fun _ => .inr rfl⟩

theorem covers_trans (h : s.covers t) (h' : t.covers u) : s.covers u := by
  obtain ⟨htenant, hpart⟩ := covers_iff.1 h
  obtain ⟨htenant', hpart'⟩ := covers_iff.1 h'
  refine covers_iff.2 ⟨htenant.trans htenant', fun f => ?_⟩
  rcases hpart f with hnone | heq
  · exact .inl hnone
  · rcases hpart' f with hnone | heq'
    · exact .inl (heq.trans hnone)
    · exact .inr (heq.trans heq')

end Scope

end RagLeap.Security
