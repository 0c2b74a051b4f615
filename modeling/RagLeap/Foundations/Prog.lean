import Mathlib.Data.List.Basic
import Mathlib.Tactic.Common

/-!
# Programs over atomic statements

A procedure that talks to the outside world (a database, a model, a message channel) is a
`Prog`: it has returned, or it issues one statement and goes on with the answer. The answers
are not fixed, so one program describes every run of the procedure: `Prog.Trace` lists the
runs, complete or cut short, by the statements issued and the answers received. `Proc` adds an
exception, and `Prog.interp` replaces each statement by a program over finer statements.

A `Protocol` is a typestate: which statements may be issued in a phase, and the phase each
answer leads to. `Prog.Follows` says that a program keeps to it whatever answers it gets. It is
proved along the program text (`Follows.bind`, `Follows.interp`), and `Follows.of_trace` is what
it means for the runs.
-/

namespace RagLeap

/-- The statements of an interface, with the type of the answer to each. -/
structure Signature where
  Op : Type
  Res : Op → Type

/-- A program: a result, or a statement and what follows each answer to it. -/
inductive Prog (S : Signature) (α : Type)
  | ret (a : α)
  | op (o : S.Op) (k : S.Res o → Prog S α)

namespace Prog

variable {S T : Signature} {α β γ : Type}

/-- Sequential composition. -/
def bind : Prog S α → (α → Prog S β) → Prog S β
  | ret a, f => f a
  | op o k, f => op o fun r => (k r).bind f

instance : Monad (Prog S) where
  pure := ret
  bind := bind

@[simp] theorem pure_eq (a : α) : (pure a : Prog S α) = ret a := rfl

@[simp] theorem ret_bind (a : α) (f : α → Prog S β) : ret a >>= f = f a := rfl

@[simp] theorem op_bind (o : S.Op) (k : S.Res o → Prog S α) (f : α → Prog S β) :
    op o k >>= f = op o fun r => k r >>= f := rfl

theorem bind_assoc (p : Prog S α) (f : α → Prog S β) (g : β → Prog S γ) :
    p >>= f >>= g = p >>= fun a => f a >>= g := by
  induction p with
  | ret a => rfl
  | op o k ih => exact congrArg (Prog.op o) (funext ih)

/-! ## Traces -/

/-- A statement with the answer it received. -/
abbrev Event (S : Signature) : Type := Σ o : S.Op, S.Res o

/-- `Trace p es q`: `p` issues the statements of `es`, receives the answers there and has `q`
left to do. -/
inductive Trace : Prog S α → List (Event S) → Prog S α → Prop
  | refl (p : Prog S α) : Trace p [] p
  | step {o : S.Op} {k : S.Res o → Prog S α} (r : S.Res o) {es : List (Event S)} {q : Prog S α}
      (h : Trace (k r) es q) : Trace (op o k) (⟨o, r⟩ :: es) q

/-- The events of a program whose `n`-th statement is answered by the `n`-th of the answering
functions, until either runs out. -/
def play : Prog S α → List ((o : S.Op) → S.Res o) → List (Event S)
  | op o k, w :: ws => ⟨o, w o⟩ :: play (k (w o)) ws
  | _, _ => []

theorem exists_trace_play (p : Prog S α) (ws : List ((o : S.Op) → S.Res o)) :
    ∃ q, Trace p (play p ws) q := by
  induction ws generalizing p with
  | nil => exact ⟨p, by cases p <;> exact .refl _⟩
  | cons w ws ih =>
    cases p with
    | ret a => exact ⟨ret a, .refl _⟩
    | op o k =>
      obtain ⟨q, h⟩ := ih (k (w o))
      exact ⟨q, .step _ h⟩

end Prog

/-! ## Typestate -/

/-- What a program may issue in a phase, and the phase it is in after an answer; `none` for an
answer that is not given. -/
structure Protocol (S : Signature) where
  Phase : Type
  permits : Phase → S.Op → Prop
  next : Phase → (o : S.Op) → S.Res o → Option Phase

namespace Protocol

variable {S : Signature} (P : Protocol S)

/-- The phase after a list of answered statements. -/
def after : P.Phase → List (Prog.Event S) → Option P.Phase
  | φ, [] => some φ
  | φ, e :: es => (P.next φ e.1 e.2).bind fun φ' => after φ' es

theorem after_cons {P : Protocol S} {φ φ' : P.Phase} {e : Prog.Event S}
    {es : List (Prog.Event S)} (h : P.next φ e.1 e.2 = some φ') :
    P.after φ (e :: es) = P.after φ' es := by
  simp [after, h]

/-- The statements meeting `φ` only, as `P` has them. -/
def restrict (φ : S.Op → Prop) : Protocol S := { P with permits p o := φ o ∧ P.permits p o }

/-- The statements meeting `φ`, in any order. -/
def only (φ : S.Op → Prop) : Protocol S := ⟨Unit, fun _ o => φ o, fun _ _ _ => some ()⟩

end Protocol

namespace Prog

variable {S T : Signature} {α β γ : Type}

/-- From phase `φ` on, `p` issues permitted statements only, and returns in a phase with `Q`. -/
def Follows (P : Protocol S) (Q : P.Phase → α → Prop) : P.Phase → Prog S α → Prop
  | φ, ret a => Q φ a
  | φ, op o k => P.permits φ o ∧ ∀ r φ', P.next φ o r = some φ' → Follows P Q φ' (k r)

namespace Follows

variable {P : Protocol S} {Q : P.Phase → α → Prop} {φ : P.Phase}

@[simp] theorem ret_iff (a : α) : Follows P Q φ (ret a) ↔ Q φ a := Iff.rfl

@[simp] theorem op_iff (o : S.Op) (k : S.Res o → Prog S α) :
    Follows P Q φ (op o k) ↔
      P.permits φ o ∧ ∀ r φ', P.next φ o r = some φ' → Follows P Q φ' (k r) := Iff.rfl

theorem mono {Q' : P.Phase → α → Prop} {p : Prog S α} (hp : Follows P Q φ p)
    (hQ : ∀ φ a, Q φ a → Q' φ a) : Follows P Q' φ p := by
  induction p generalizing φ with
  | ret a => exact hQ φ a hp
  | op o k ih => exact ⟨hp.1, fun r φ' h => ih r (hp.2 r φ' h)⟩

/-- Sequencing: the continuation starts in the phase the first program ends in. -/
theorem bind {f : α → Prog S β} {Q' : P.Phase → β → Prop} {p : Prog S α} (hp : Follows P Q φ p)
    (hf : ∀ φ a, Q φ a → Follows P Q' φ (f a)) : Follows P Q' φ (p >>= f) := by
  induction p generalizing φ with
  | ret a => exact hf φ a hp
  | op o k ih => exact ⟨hp.1, fun r φ' h => ih r (hp.2 r φ' h)⟩

/-- A program that follows one protocol follows every protocol whose phases are related to it so
that each statement the first permits is permitted, and leads to related phases. -/
theorem transfer {P' : Protocol S} (R : P.Phase → P'.Phase → Prop)
    (hR : ∀ φ ψ o, R φ ψ → P.permits φ o → P'.permits ψ o ∧
      ∀ r ψ', P'.next ψ o r = some ψ' → ∃ φ', P.next φ o r = some φ' ∧ R φ' ψ')
    {p : Prog S α} (hp : Follows P Q φ p) {ψ : P'.Phase} (h : R φ ψ) :
    Follows P' (fun ψ' a => ∃ φ', Q φ' a ∧ R φ' ψ') ψ p := by
  induction p generalizing φ ψ with
  | ret a => exact ⟨φ, hp, h⟩
  | op o k ih =>
    obtain ⟨hpermits, hnext⟩ := hR φ ψ o h hp.1
    refine ⟨hpermits, fun r ψ' hψ' => ?_⟩
    obtain ⟨φ', hφ', h'⟩ := hnext r ψ' hψ'
    exact ih r (hp.2 r φ' hφ') h'

/-- What every permitted statement keeps, and cannot be answered out of, holds along a trace. -/
theorem keeps {I : P.Phase → Prop} (hI : ∀ φ o r, I φ → P.permits φ o →
      ∃ φ', P.next φ o r = some φ' ∧ I φ')
    {p q : Prog S α} {es : List (Event S)} (ht : Trace p es q) (hp : Follows P Q φ p) (h : I φ) :
    ∃ φ', P.after φ es = some φ' ∧ I φ' ∧ Follows P Q φ' q := by
  induction ht generalizing φ with
  | refl p => exact ⟨φ, rfl, h, hp⟩
  | step r ht ih =>
    obtain ⟨φ₁, h₁, hI₁⟩ := hI φ _ r h hp.1
    obtain ⟨φ', h', hI', hq⟩ := ih (hp.2 r φ₁ h₁) hI₁
    exact ⟨φ', by rw [Protocol.after_cons h₁, h'], hI', hq⟩

/-- What a permitted statement shows of the statements before it (`G`), by a relation `I` between
those and the phase that every permitted statement keeps. -/
theorem history {I : List (Event S) → P.Phase → Prop} {G : List (Event S) → Event S → Prop}
    (hI : ∀ pre φ o r, I pre φ → P.permits φ o →
      ∃ φ', P.next φ o r = some φ' ∧ G pre ⟨o, r⟩ ∧ I (pre ++ [⟨o, r⟩]) φ')
    {p q : Prog S α} {es : List (Event S)} (ht : Trace p es q) (hp : Follows P Q φ p)
    {pre : List (Event S)} (h : I pre φ) :
    (∃ φ', I (pre ++ es) φ') ∧
      ∀ es₁ e es₂, es = es₁ ++ e :: es₂ → G (pre ++ es₁) e := by
  induction ht generalizing φ pre with
  | refl p => exact ⟨⟨φ, by simpa using h⟩, fun es₁ e es₂ he => by simp at he⟩
  | step r ht ih =>
    obtain ⟨φ₁, h₁, hG, hI₁⟩ := hI pre φ _ r h hp.1
    obtain ⟨hend, hes⟩ := ih (hp.2 r φ₁ h₁) hI₁
    refine ⟨by simpa using hend, fun es₁ e es₂ he => ?_⟩
    rcases es₁ with _ | ⟨e₁, es₁⟩
    · obtain ⟨rfl, -⟩ := List.cons.inj he
      simpa using hG
    · obtain ⟨rfl, hrest⟩ := List.cons.inj he
      simpa using hes es₁ e es₂ hrest

/-- Every statement of a trace is permitted in the phase the statements before it lead to. -/
theorem of_trace {p q : Prog S α} {es : List (Event S)} {φ' : P.Phase} (ht : Trace p es q)
    (hp : Follows P Q φ p) (ha : P.after φ es = some φ') :
    Follows P Q φ' q ∧ ∀ es₁ o r es₂, es = es₁ ++ ⟨o, r⟩ :: es₂ →
      ∃ φ₁, P.after φ es₁ = some φ₁ ∧ P.permits φ₁ o := by
  induction ht generalizing φ with
  | refl p => exact ⟨Option.some.inj ha ▸ hp, fun es₁ o r es₂ he => by simp at he⟩
  | step r ht ih =>
    obtain ⟨φ₁, h₁, ha⟩ := Option.bind_eq_some_iff.1 ha
    obtain ⟨hq, hes⟩ := ih (hp.2 r φ₁ h₁) ha
    refine ⟨hq, fun es₁ o' r' es₂ he => ?_⟩
    rcases es₁ with _ | ⟨e, es₁⟩
    · simp only [List.nil_append, List.cons.injEq, Sigma.mk.injEq] at he
      obtain ⟨⟨rfl, -⟩, -⟩ := he
      exact ⟨φ, rfl, hp.1⟩
    · simp only [List.cons_append, List.cons.injEq] at he
      obtain ⟨rfl, he⟩ := he
      obtain ⟨φ₂, h₂, hpermits⟩ := hes es₁ o' r' es₂ he
      exact ⟨φ₂, by simp [Protocol.after, h₁, h₂], hpermits⟩

end Follows

/-- Every statement `p` may issue meets `φ`. -/
def Only (φ : S.Op → Prop) (p : Prog S α) : Prop :=
  p.Follows (Protocol.only φ) (fun _ _ => True) ()

namespace Only

variable {φ : S.Op → Prop}

@[simp] theorem ret_iff (a : α) : Only φ (ret a : Prog S α) ↔ True := Iff.rfl

@[simp] theorem op_iff (o : S.Op) (k : S.Res o → Prog S α) :
    Only φ (op o k) ↔ φ o ∧ ∀ r, Only φ (k r) :=
  ⟨fun h => ⟨h.1, fun r => h.2 r () rfl⟩, fun h => ⟨h.1, fun r _ _ => h.2 r⟩⟩

theorem bind {p : Prog S α} {f : α → Prog S β} (hp : Only φ p) (hf : ∀ a, Only φ (f a)) :
    Only φ (p >>= f) :=
  Follows.bind hp fun _ a _ => hf a

theorem mono {ψ : S.Op → Prop} {p : Prog S α} (hp : Only φ p) (h : ∀ o, φ o → ψ o) :
    Only ψ p := by
  induction p with
  | ret a => trivial
  | op o k ih => exact (op_iff _ _).2 ⟨h o hp.1, fun r => ih r (hp.2 r () rfl)⟩

/-- A program of statements that a phase permits and that leave it stays in the phase. -/
theorem follows_and {P : Protocol S} {ph : P.Phase} {p : Prog S α} {Q : α → Prop}
    (hp : p.Follows (Protocol.only φ) (fun _ => Q) ())
    (h : ∀ o, φ o → P.permits ph o ∧ ∀ r ph', P.next ph o r = some ph' → ph' = ph) :
    p.Follows P (fun ph' a => ph' = ph ∧ Q a) ph := by
  induction p with
  | ret a => exact ⟨rfl, hp⟩
  | op o k ih =>
    refine ⟨(h o hp.1).1, fun r ph' hr => ?_⟩
    obtain rfl := (h o hp.1).2 r ph' hr
    exact ih r (hp.2 r () rfl)

theorem follows {P : Protocol S} {ph : P.Phase} {p : Prog S α} (hp : Only φ p)
    (h : ∀ o, φ o → P.permits ph o ∧ ∀ r ph', P.next ph o r = some ph' → ph' = ph) :
    p.Follows P (fun ph' _ => ph' = ph) ph :=
  (follows_and hp h).mono fun _ _ h => h.1

end Only

/-! ## Interpretation in finer statements -/

/-- Each statement of `p` carried out by the program `H` gives for it. -/
def interp (H : (o : S.Op) → Prog T (S.Res o)) : Prog S α → Prog T α
  | ret a => ret a
  | op o k => H o >>= fun r => interp H (k r)

/-- If the program of every permitted statement moves a finer protocol as the statement moves
the coarse one, an interpreted program follows the finer protocol. -/
theorem Follows.interp {P : Protocol S} {P' : Protocol T} (g : P.Phase → P'.Phase)
    {H : (o : S.Op) → Prog T (S.Res o)}
    (hH : ∀ φ o, P.permits φ o →
      Follows P' (fun ψ r => ∃ φ', P.next φ o r = some φ' ∧ ψ = g φ') (g φ) (H o))
    {Q : P.Phase → α → Prop} {φ : P.Phase} {p : Prog S α} (hp : Follows P Q φ p) :
    Follows P' (fun ψ a => ∃ φ', Q φ' a ∧ ψ = g φ') (g φ) (p.interp H) := by
  induction p generalizing φ with
  | ret a => exact ⟨φ, hp, rfl⟩
  | op o k ih =>
    refine (hH φ o hp.1).bind ?_
    rintro _ r ⟨φ', h, rfl⟩
    exact ih r (hp.2 r φ' h)

/-- A program whose statements are carried out by programs of statements meeting `ψ`. -/
theorem Only.interp {φ : S.Op → Prop} {ψ : T.Op → Prop} {H : (o : S.Op) → Prog T (S.Res o)}
    (hH : ∀ o, φ o → (H o).Only ψ) {p : Prog S α} (hp : p.Only φ) : (p.interp H).Only ψ := by
  induction p with
  | ret a => trivial
  | op o k ih => exact (hH o hp.1).bind fun r => ih r (hp.2 r () rfl)

/-- Carrying out some statements of a protocol by others of the same protocol. -/
theorem Follows.interp_restrict {P : Protocol S} {φ ψ : S.Op → Prop}
    {H : (o : S.Op) → Prog S (S.Res o)}
    (hH : ∀ ph o, φ o → P.permits ph o →
      Follows (P.restrict ψ) (fun ph' r => P.next ph o r = some ph') ph (H o))
    {Q : P.Phase → α → Prop} {ph : P.Phase} {p : Prog S α} (hp : Follows (P.restrict φ) Q ph p) :
    Follows (P.restrict ψ) Q ph (p.interp H) := by
  refine (@Follows.interp S S α (P.restrict φ) (P.restrict ψ) id H (fun ph o ho => ?_) Q ph p
    hp).mono ?_
  · exact (hH ph o ho.1 ho.2).mono fun ph' _ h => ⟨ph', h, rfl⟩
  · rintro _ a ⟨ph', h, rfl⟩
    exact h

end Prog

/-! ## Programs that may raise -/

/-- A program whose result may be an exception (`none`). -/
abbrev Proc (S : Signature) (α : Type) : Type := OptionT (Prog S) α

namespace Proc

variable {S : Signature} {α β : Type}

/-- Issues one statement and returns the answer. -/
def call (o : S.Op) : Proc S (S.Res o) := OptionT.mk (.op o fun r => .ret (some r))

/-- Raises an exception. -/
def throw : Proc S α := OptionT.mk (.ret none)

/-- The result of `x`, or `none` if it raised: the body of a `try` with a catch-all. -/
def attempt (x : Proc S α) : Proc S (Option α) := OptionT.mk (x.run >>= fun a => .ret (some a))

@[simp] theorem run_pure (a : α) : (pure a : Proc S α).run = .ret (some a) := rfl

@[simp] theorem run_throw : (throw : Proc S α).run = .ret none := rfl

@[simp] theorem run_call (o : S.Op) : (call o).run = .op o fun r => .ret (some r) := rfl

@[simp] theorem run_call_bind (o : S.Op) (f : S.Res o → Proc S β) :
    (call o >>= f).run = .op o fun r => (f r).run := rfl

@[simp] theorem run_pure_bind (a : α) (f : α → Proc S β) : (pure a >>= f).run = (f a).run := rfl

@[simp] theorem run_throw_bind (f : α → Proc S β) : (throw >>= f).run = .ret none := rfl

theorem run_bind (x : Proc S α) (f : α → Proc S β) :
    (x >>= f).run = x.run >>= fun | some a => (f a).run | none => .ret none := rfl

@[simp] theorem run_attempt (x : Proc S α) : (attempt x).run = x.run >>= fun a => .ret (some a) :=
  rfl

theorem only_bind {φ : S.Op → Prop} {x : Proc S α} {f : α → Proc S β} (hx : x.run.Only φ)
    (hf : ∀ a, (f a).run.Only φ) : (x >>= f).run.Only φ := by
  rw [run_bind]
  refine hx.bind fun a => ?_
  cases a with
  | none => trivial
  | some a => exact hf a

theorem only_attempt {φ : S.Op → Prop} {x : Proc S α} (hx : x.run.Only φ) :
    (attempt x).run.Only φ :=
  hx.bind fun _ => trivial

theorem only_ite {φ : S.Op → Prop} {c : Prop} [Decidable c] {x y : Proc S α} (hx : x.run.Only φ)
    (hy : y.run.Only φ) : (if c then x else y).run.Only φ := by
  split
  · exact hx
  · exact hy

variable {P : Protocol S} {φ : P.Phase}

theorem follows_call_bind {o : S.Op} {f : S.Res o → Proc S β} {Q : P.Phase → Option β → Prop}
    (ho : P.permits φ o)
    (hf : ∀ r φ', P.next φ o r = some φ' → (f r).run.Follows P Q φ') :
    (call o >>= f).run.Follows P Q φ := ⟨ho, hf⟩

/-- Sequencing: the continuation runs where the first program returns, and is skipped where it
raises. -/
theorem follows_bind {x : Proc S α} {f : α → Proc S β} {Q : P.Phase → Option α → Prop}
    {Q' : P.Phase → Option β → Prop} (hx : x.run.Follows P Q φ)
    (hf : ∀ φ a, Q φ (some a) → (f a).run.Follows P Q' φ) (hn : ∀ φ, Q φ none → Q' φ none) :
    (x >>= f).run.Follows P Q' φ := by
  rw [run_bind]
  refine hx.bind fun φ a h => ?_
  cases a with
  | none => exact hn φ h
  | some a => exact hf φ a h

end Proc

end RagLeap
