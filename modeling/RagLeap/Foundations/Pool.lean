import Mathlib.Logic.Function.Basic
import RagLeap.Foundations.Prog

/-!
# Statement semantics, sequential runs and interleavings

A `Machine` says what each statement does to a shared state; a choice `ω` settles what the
program does not control (whether the statement fails, what a remote party answers, which
random value is drawn). `Machine.Runs` runs one program to its result.

A `Pool` is any number of programs over one state. A schedule is a list of events, each naming
the program that takes its next statement and the choice for that statement; statements are
atomic and nothing else is. `Pool.Along` states a condition on the state before every step of a
schedule. `Pool.run_follows` is the invariant rule for programs that follow a protocol: it
suffices that the invariant, over the phases of the programs and the state, is kept by every
permitted statement.
-/

namespace RagLeap

/-- What the statements of an interface do to a state. `none`: the choice does not fit the
statement in this state. -/
structure Machine (S : Signature) (σ ω : Type) where
  act : (o : S.Op) → ω → σ → Option (S.Res o × σ)

namespace Machine

variable {S : Signature} {σ ω α β : Type} (M : Machine S σ ω)

/-- `Runs M p s es a s'`: with the choices of `es`, each next to its statement, `p` returns `a`
and takes the state from `s` to `s'`. -/
inductive Runs : Prog S α → σ → List (S.Op × ω) → α → σ → Prop
  | ret (a : α) (s : σ) : Runs (.ret a) s [] a s
  | op {o : S.Op} {k : S.Res o → Prog S α} {w : ω} {s s₁ s' : σ} {r : S.Res o}
      {es : List (S.Op × ω)} {a : α} (hact : M.act o w s = some (r, s₁))
      (h : Runs (k r) s₁ es a s') : Runs (.op o k) s ((o, w) :: es) a s'

variable {M}

@[simp] theorem runs_ret_iff {a b : α} {s s' : σ} {es : List (S.Op × ω)} :
    M.Runs (.ret a) s es b s' ↔ es = [] ∧ b = a ∧ s' = s := by
  constructor
  · rintro ⟨⟩
    exact ⟨rfl, rfl, rfl⟩
  · rintro ⟨rfl, rfl, rfl⟩
    exact .ret _ _

@[simp] theorem runs_op_iff {o : S.Op} {k : S.Res o → Prog S α} {s s' : σ}
    {es : List (S.Op × ω)} {a : α} :
    M.Runs (.op o k) s es a s' ↔
      ∃ w r s₁ es', M.act o w s = some (r, s₁) ∧ M.Runs (k r) s₁ es' a s' ∧
        es = (o, w) :: es' := by
  constructor
  · rintro ⟨⟩
    exact ⟨_, _, _, _, ‹_›, ‹_›, rfl⟩
  · rintro ⟨w, r, s₁, es', hact, h, rfl⟩
    exact .op hact h

/-- A run of a sequence is a run of its first part and a run of the rest. -/
theorem runs_bind_iff {p : Prog S α} {f : α → Prog S β} {s s' : σ} {es : List (S.Op × ω)}
    {b : β} :
    M.Runs (p >>= f) s es b s' ↔
      ∃ es₁ es₂ a s₁, es = es₁ ++ es₂ ∧ M.Runs p s es₁ a s₁ ∧ M.Runs (f a) s₁ es₂ b s' := by
  constructor
  · induction p generalizing s es with
    | ret a => exact fun h => ⟨[], es, a, s, rfl, .ret a s, h⟩
    | op o k ih =>
      rw [Prog.op_bind, runs_op_iff]
      rintro ⟨w, r, s₁, es', hact, h, rfl⟩
      obtain ⟨es₁, es₂, a, s₂, rfl, h₁, h₂⟩ := ih r h
      exact ⟨(o, w) :: es₁, es₂, a, s₂, rfl, .op hact h₁, h₂⟩
  · rintro ⟨es₁, es₂, a, s₁, rfl, h₁, h₂⟩
    induction h₁ with
    | ret a s => exact h₂
    | op hact _ ih => exact .op hact (ih h₂)

/-- A sequence that returns is a run of its first part that returns and one of the rest. -/
theorem runs_bind_some_iff {x : Proc S α} {f : α → Proc S β} {s s' : σ} {es : List (S.Op × ω)}
    {b : β} :
    M.Runs (x >>= f).run s es (some b) s' ↔
      ∃ es₁ es₂ a s₁, es = es₁ ++ es₂ ∧ M.Runs x.run s es₁ (some a) s₁ ∧
        M.Runs (f a).run s₁ es₂ (some b) s' := by
  rw [Proc.run_bind, runs_bind_iff]
  constructor
  · rintro ⟨es₁, es₂, a, s₁, rfl, h₁, h₂⟩
    cases a with
    | none => cases h₂
    | some a => exact ⟨es₁, es₂, a, s₁, rfl, h₁, h₂⟩
  · rintro ⟨es₁, es₂, a, s₁, rfl, h₁, h₂⟩
    exact ⟨es₁, es₂, some a, s₁, rfl, h₁, h₂⟩

/-- What every permitted statement keeps, in step with the phase, holds where the program
ends. -/
theorem Runs.follows {P : Protocol S} {Q : P.Phase → α → Prop} {I : P.Phase → σ → Prop}
    (hstep : ∀ φ o w s r s', I φ s → P.permits φ o → M.act o w s = some (r, s') →
      ∃ φ', P.next φ o r = some φ' ∧ I φ' s')
    {p : Prog S α} {s s' : σ} {es : List (S.Op × ω)} {a : α} (h : M.Runs p s es a s')
    {φ : P.Phase} (hp : p.Follows P Q φ) (hs : I φ s) : ∃ φ', Q φ' a ∧ I φ' s' := by
  induction h generalizing φ with
  | ret a s => exact ⟨φ, hp, hs⟩
  | op hact _ ih =>
    obtain ⟨φ', hφ', hs'⟩ := hstep φ _ _ _ _ _ hs hp.1 hact
    exact ih (hp.2 _ φ' hφ') hs'

/-- The statements of a run are the ones the program may issue, and what each of them keeps is
kept by the run. -/
theorem Runs.only {φ : S.Op → Prop} {I : σ → Prop}
    (hstep : ∀ o w s r s', φ o → I s → M.act o w s = some (r, s') → I s') {p : Prog S α}
    {s s' : σ} {es : List (S.Op × ω)} {a : α} (h : M.Runs p s es a s') (hp : p.Only φ)
    (hs : I s) : (∀ e ∈ es, φ e.1) ∧ I s' := by
  induction h with
  | ret a s => exact ⟨by simp, hs⟩
  | op hact _ ih =>
    obtain ⟨ho, hk⟩ := (Prog.Only.op_iff _ _).1 hp
    obtain ⟨hes, hs'⟩ := ih (hk _) (hstep _ _ _ _ _ ho hs hact)
    exact ⟨List.forall_mem_cons.2 ⟨ho, hes⟩, hs'⟩

variable (M)

/-- The run of a program on given choices, if they fit and are as many as it takes. -/
def play : Prog S α → List ω → σ → Option (List (S.Op × ω) × α × σ)
  | .ret a, [], s => some ([], a, s)
  | .op o k, w :: ws, s =>
    match M.act o w s with
    | none => none
    | some (r, s₁) =>
      match play (k r) ws s₁ with
      | none => none
      | some (es, a, s') => some ((o, w) :: es, a, s')
  | _, _, _ => none

/-- A test of the run on given choices: its statements, its result and the state it ends in. -/
def plays (p : Prog S α) (ws : List ω) (s : σ) (test : List (S.Op × ω) → α → σ → Bool) : Bool :=
  match M.play p ws s with
  | some (es, a, s') => test es a s'
  | none => false

variable {M}

theorem runs_of_play {p : Prog S α} {ws : List ω} {s s' : σ} {es : List (S.Op × ω)} {a : α}
    (h : M.play p ws s = some (es, a, s')) : M.Runs p s es a s' := by
  induction p generalizing ws s es with
  | ret b =>
    cases ws with
    | nil => cases h; exact .ret _ _
    | cons w ws => cases h
  | op o k ih =>
    cases ws with
    | nil => cases h
    | cons w ws =>
      rw [play] at h
      split at h
      · cases h
      · rename_i r s₁ hact
        split at h
        · cases h
        · rename_i es' a' s'' hplay
          cases h
          exact .op hact (ih r hplay)

theorem exists_runs_of_plays (p : Prog S α) (ws : List ω) (s : σ)
    (test : List (S.Op × ω) → α → σ → Bool) (h : M.plays p ws s test = true) :
    ∃ es a s', M.Runs p s es a s' ∧ test es a s' = true := by
  unfold plays at h
  split at h
  · rename_i es a s' hplay
    exact ⟨es, a, s', runs_of_play hplay, h⟩
  · cases h

end Machine

/-! ## Interleavings -/

/-- Programs, one for each index, over one shared state. -/
structure Pool (S : Signature) (ι σ α : Type) where
  threads : ι → Prog S α
  state : σ

namespace Pool

variable {S : Signature} {ι σ ω α : Type} [DecidableEq ι] (M : Machine S σ ω)

/-- One step: the thread named by the event takes its next statement. -/
def step (c : Pool S ι σ α) (e : ι × ω) : Option (Pool S ι σ α) :=
  match c.threads e.1 with
  | .ret _ => none
  | .op o k => (M.act o e.2 c.state).map fun x => ⟨Function.update c.threads e.1 (k x.1), x.2⟩

/-- The pool a schedule leads to. -/
def run (c : Pool S ι σ α) : List (ι × ω) → Option (Pool S ι σ α)
  | [] => some c
  | e :: es => (c.step M e).bind fun c' => c'.run es

/-- Every statement of the schedule is issued, by its thread and with its choice, in a state
meeting `G`. -/
def Along (G : ι → S.Op → ω → σ → Prop) (c : Pool S ι σ α) : List (ι × ω) → Prop
  | [] => True
  | e :: es =>
    (∀ o k, c.threads e.1 = .op o k → G e.1 o e.2 c.state) ∧
      ∀ c', c.step M e = some c' → Along G c' es

/-- A test of the pool a schedule leads to. -/
def reaches (c : Pool S ι σ α) (es : List (ι × ω)) (test : Pool S ι σ α → Bool) : Bool :=
  match c.run M es with
  | some c' => test c'
  | none => false

/-- A test of every statement of a schedule before it is carried out. -/
def check (test : ι → S.Op → ω → σ → Bool) (c : Pool S ι σ α) : List (ι × ω) → Bool
  | [] => true
  | e :: es =>
    (match c.threads e.1 with
      | .ret _ => true
      | .op o _ => test e.1 o e.2 c.state) &&
    (match c.step M e with
      | none => true
      | some c' => check test c' es)

variable {M}

theorem exists_run_of_reaches (c : Pool S ι σ α) (es : List (ι × ω))
    (test : Pool S ι σ α → Bool) (h : c.reaches M es test = true) :
    ∃ c', c.run M es = some c' ∧ test c' = true := by
  unfold reaches at h
  split at h
  · rename_i c' hrun
    exact ⟨c', hrun, h⟩
  · cases h

theorem along_of_check {G : ι → S.Op → ω → σ → Prop} (test : ι → S.Op → ω → σ → Bool)
    (hG : ∀ i o w s, test i o w s = true → G i o w s) {c : Pool S ι σ α} {es : List (ι × ω)}
    (h : c.check M test es = true) : c.Along M G es := by
  induction es generalizing c with
  | nil => trivial
  | cons e es ih =>
    rw [check, Bool.and_eq_true] at h
    refine ⟨fun o k hk => hG _ _ _ _ (by simpa [hk] using h.1), fun c' hc' => ih ?_⟩
    simpa [hc'] using h.2

theorem step_eq_some {c c' : Pool S ι σ α} {e : ι × ω} (h : c.step M e = some c') :
    ∃ o k r s, c.threads e.1 = .op o k ∧ M.act o e.2 c.state = some (r, s) ∧
      c' = ⟨Function.update c.threads e.1 (k r), s⟩ := by
  unfold step at h
  split at h
  · cases h
  · rename_i o k hk
    obtain ⟨⟨r, s⟩, hx, rfl⟩ := Option.map_eq_some_iff.1 h
    exact ⟨o, k, r, s, hk, hx, rfl⟩

/-- A condition that holds along a schedule holds along each of its beginnings. -/
theorem Along.of_prefix {G : ι → S.Op → ω → σ → Prop} {c : Pool S ι σ α} {es es₁ : List (ι × ω)}
    (h : c.Along M G es) (hes : es₁ <+: es) : c.Along M G es₁ := by
  induction es₁ generalizing c es with
  | nil => trivial
  | cons e es₁ ih =>
    obtain ⟨es₂, rfl⟩ := hes
    exact ⟨h.1, fun c' hc' => ih (h.2 c' hc') (List.prefix_append es₁ es₂)⟩

/-- A condition that every statement meets after which `I` holds, holds along a schedule all of whose
beginnings lead to states with `I`. -/
theorem along_of_prefixes {G : ι → S.Op → ω → σ → Prop} {I : σ → Prop}
    (hG : ∀ i o w s, (∀ r s', M.act o w s = some (r, s') → I s') → G i o w s)
    {c : Pool S ι σ α} {es : List (ι × ω)}
    (h : ∀ es₁ c', es₁ <+: es → c.run M es₁ = some c' → I c'.state) : c.Along M G es := by
  induction es generalizing c with
  | nil => trivial
  | cons e es ih =>
    refine ⟨fun o k hk => hG _ _ _ _ fun r s' hact => ?_, fun c' hc' => ih fun es₁ c'' hes hrun => ?_⟩
    · have hstep : c.step M e = some ⟨Function.update c.threads e.1 (k r), s'⟩ := by
        simp [step, hk, hact]
      exact h [e] ⟨Function.update c.threads e.1 (k r), s'⟩ (List.prefix_append [e] es)
        (by simp [run, hstep])
    · exact h (e :: es₁) c'' (List.cons_prefix_cons.2 ⟨rfl, hes⟩) (by simpa [run, hc'] using hrun)

/-- **The invariant rule.** Threads that each follow a protocol keep, along every schedule whose
steps meet the condition, what each permitted statement keeps. -/
theorem run_follows_each {P : ι → Protocol S} {Q : (i : ι) → (P i).Phase → α → Prop}
    {G : ι → S.Op → ω → σ → Prop} {I : ((i : ι) → (P i).Phase) → σ → Prop}
    (hstep : ∀ φ i o w s r s', I φ s → (P i).permits (φ i) o → G i o w s →
      M.act o w s = some (r, s') →
      ∃ φ', (P i).next (φ i) o r = some φ' ∧ I (Function.update φ i φ') s')
    {c c' : Pool S ι σ α} {es : List (ι × ω)} (h : c.run M es = some c') (hG : c.Along M G es)
    {φ : (i : ι) → (P i).Phase} (hp : ∀ i, (c.threads i).Follows (P i) (Q i) (φ i))
    (hc : I φ c.state) :
    ∃ φ', (∀ i, (c'.threads i).Follows (P i) (Q i) (φ' i)) ∧ I φ' c'.state := by
  induction es generalizing c φ with
  | nil => exact Option.some.inj h ▸ ⟨φ, hp, hc⟩
  | cons e es ih =>
    obtain ⟨c₁, h₁, h⟩ := Option.bind_eq_some_iff.1 h
    obtain ⟨hGe, hG⟩ := hG
    obtain ⟨o, k, r, s, hk, hact, rfl⟩ := step_eq_some h₁
    have hop := hp e.1
    rw [hk] at hop
    obtain ⟨φ', hφ', hI⟩ := hstep φ e.1 o e.2 c.state r s hc hop.1 (hGe o k hk) hact
    refine ih h (hG _ h₁) (φ := Function.update φ e.1 φ') (fun i => ?_) hI
    rcases eq_or_ne i e.1 with rfl | hi
    · simpa using hop.2 r φ' hφ'
    · simpa [Function.update_of_ne hi] using hp i

/-- The invariant rule for threads that follow one protocol. -/
theorem run_follows {P : Protocol S} {Q : ι → P.Phase → α → Prop}
    {G : ι → S.Op → ω → σ → Prop} {I : (ι → P.Phase) → σ → Prop}
    (hstep : ∀ φ i o w s r s', I φ s → P.permits (φ i) o → G i o w s →
      M.act o w s = some (r, s') →
      ∃ φ', P.next (φ i) o r = some φ' ∧ I (Function.update φ i φ') s')
    {c c' : Pool S ι σ α} {es : List (ι × ω)} (h : c.run M es = some c') (hG : c.Along M G es)
    {φ : ι → P.Phase} (hp : ∀ i, (c.threads i).Follows P (Q i) (φ i)) (hc : I φ c.state) :
    ∃ φ', (∀ i, (c'.threads i).Follows P (Q i) (φ' i)) ∧ I φ' c'.state :=
  run_follows_each hstep h hG hp hc

end Pool

end RagLeap
