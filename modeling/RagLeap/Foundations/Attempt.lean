import Mathlib.Data.List.Basic
import Mathlib.Tactic.Common

/-!
# Sequences of committed steps

An `Attempt` works on a store through transactions of its own, one after another: what a
transaction committed stays when a later one raises. `Fate` says how a single transaction went;
`raises true` is the case where the exception reached the caller although the change is in, as
after a connection lost while the commit was answered.

`Attempt.Moves R` is the frame rule: whatever is raised, and wherever, the store before and the
store after are related by `R`. `Attempt.Fails` is where an exception comes from.
-/

namespace RagLeap

/-- How a transaction went for its caller: it went through, or it raised, with its change
committed or not. -/
inductive Fate
  | passes
  | raises (committed : Bool)
  deriving DecidableEq

/-- A computation that may raise (`none`), with the store it leaves either way. -/
def Attempt (σ α : Type) : Type := σ → Option α × σ

namespace Attempt

variable {σ α β : Type}

/-- Sequential composition: an exception ends the computation. -/
def bind (x : Attempt σ α) (f : α → Attempt σ β) : Attempt σ β := fun s =>
  match x s with
  | (some a, s') => f a s'
  | (none, s') => (none, s')

instance : Monad (Attempt σ) where
  pure a := fun s => (some a, s)
  bind := bind

/-- Raises an exception. -/
def raise : Attempt σ α := fun s => (none, s)

/-- The value, or an exception where there is none. -/
def ofOption : Option α → Attempt σ α
  | some a => pure a
  | none => raise

/-- One transaction: `t` gives its result and the store it leaves, or `none` where the store
refuses it. -/
def commit (o : Fate) (t : σ → Option (α × σ)) : Attempt σ α := fun s =>
  match o, t s with
  | .passes, some (a, s') => (some a, s')
  | .raises true, some (_, s') => (none, s')
  | _, _ => (none, s)

/-- A transaction that changes nothing. -/
def read (o : Fate) (f : σ → α) : Attempt σ α := commit o fun s => some (f s, s)

/-- A computation that does not raise. -/
def total (f : σ → α × σ) : Attempt σ α := fun s => (some (f s).1, (f s).2)

/-- The result of `x`, or `none` if it raised: the body of a `try` with a catch-all. -/
def attempt (x : Attempt σ α) : Attempt σ (Option α) := fun s => (some (x s).1, (x s).2)

@[simp] theorem pure_apply (a : α) (s : σ) : (pure a : Attempt σ α) s = (some a, s) := rfl

@[simp] theorem raise_apply (s : σ) : (raise : Attempt σ α) s = (none, s) := rfl

@[simp] theorem ofOption_some (a : α) : (ofOption (some a) : Attempt σ α) = pure a := rfl

@[simp] theorem ofOption_none : (ofOption none : Attempt σ α) = raise := rfl

@[simp] theorem total_apply (f : σ → α × σ) (s : σ) : total f s = (some (f s).1, (f s).2) := rfl

@[simp] theorem pure_bind (a : α) (f : α → Attempt σ β) : pure a >>= f = f a := rfl

@[simp] theorem raise_bind (f : α → Attempt σ β) : (raise : Attempt σ α) >>= f = raise := rfl

theorem bind_apply_of_some {x : Attempt σ α} {s s' : σ} {a : α} (h : x s = (some a, s'))
    (f : α → Attempt σ β) : (x >>= f) s = f a s' := by
  change bind x f s = _
  rw [bind, h]

theorem bind_apply_of_none {x : Attempt σ α} {s s' : σ} (h : x s = (none, s'))
    (f : α → Attempt σ β) : (x >>= f) s = (none, s') := by
  change bind x f s = _
  rw [bind, h]

@[simp] theorem commit_passes {t : σ → Option (α × σ)} {s s' : σ} {a : α}
    (h : t s = some (a, s')) : commit .passes t s = (some a, s') := by
  simp only [commit, h]

theorem commit_raises_committed {t : σ → Option (α × σ)} {s s' : σ} {a : α}
    (h : t s = some (a, s')) : commit (.raises true) t s = (none, s') := by
  simp only [commit, h]

@[simp] theorem commit_raises_uncommitted (t : σ → Option (α × σ)) (s : σ) :
    commit (.raises false) t s = (none, s) := by
  simp only [commit]

theorem commit_refused {t : σ → Option (α × σ)} {s : σ} (h : t s = none) (o : Fate) :
    commit o t s = (none, s) := by
  unfold commit
  rw [h]
  rcases o with _ | _ | _ <;> rfl

@[simp] theorem read_passes (f : σ → α) (s : σ) : read .passes f s = (some (f s), s) := rfl

theorem read_raises (committed : Bool) (f : σ → α) (s : σ) :
    read (.raises committed) f s = (none, s) := by
  cases committed <;> rfl

/-! ## What an attempt may do to the store -/

/-- Wherever `x` ends, it leaves a store related to the one it started from. -/
def Moves (R : σ → σ → Prop) (x : Attempt σ α) : Prop := ∀ s, R s (x s).2

namespace Moves

variable {R : σ → σ → Prop}

theorem pure [Std.Refl R] (a : α) : Moves R (Pure.pure a : Attempt σ α) := fun s => Std.Refl.refl s

theorem raise [Std.Refl R] : Moves R (Attempt.raise : Attempt σ α) := fun s => Std.Refl.refl s

theorem ofOption [Std.Refl R] (o : Option α) : Moves R (Attempt.ofOption o : Attempt σ α) := by
  cases o with
  | none => exact raise
  | some a => exact pure a

theorem bind [IsTrans σ R] {x : Attempt σ α} {f : α → Attempt σ β} (hx : Moves R x)
    (hf : ∀ a, Moves R (f a)) : Moves R (x >>= f) := by
  intro s
  have h := hx s
  rcases hxs : x s with ⟨_ | a, s'⟩
  · rw [bind_apply_of_none hxs]
    rwa [hxs] at h
  · rw [bind_apply_of_some hxs]
    rw [hxs] at h
    exact IsTrans.trans _ _ _ h (hf a s')

theorem commit [Std.Refl R] {t : σ → Option (α × σ)}
    (ht : ∀ s a s', t s = some (a, s') → R s s') (o : Fate) : Moves R (Attempt.commit o t) := by
  intro s
  cases h : t s with
  | none =>
    rw [commit_refused h]
    exact Std.Refl.refl s
  | some r =>
    rcases o with _ | _ | _
    · rw [commit_passes h]
      exact ht s r.1 r.2 h
    · rw [commit_raises_uncommitted]
      exact Std.Refl.refl s
    · rw [commit_raises_committed h]
      exact ht s r.1 r.2 h

theorem ite [Std.Refl R] {c : Prop} [Decidable c] {x y : Attempt σ α} (hx : Moves R x)
    (hy : Moves R y) : Moves R (if c then x else y) := by
  split
  · exact hx
  · exact hy

end Moves

/-! ## Where an exception comes from -/

/-- `x` raises on `s`. -/
def Fails (x : Attempt σ α) (s : σ) : Prop := (x s).1 = none

instance (x : Attempt σ α) (s : σ) : Decidable (Fails x s) :=
  decidable_of_iff ((x s).1.isNone = true) Option.isNone_iff_eq_none

@[simp] theorem fails_raise (s : σ) : Fails (raise : Attempt σ α) s := rfl

@[simp] theorem not_fails_pure (a : α) (s : σ) : ¬ Fails (pure a : Attempt σ α) s := nofun

theorem fails_bind_of_some {x : Attempt σ α} {s s' : σ} {a : α} (h : x s = (some a, s'))
    (f : α → Attempt σ β) : Fails (x >>= f) s ↔ Fails (f a) s' := by
  rw [Fails, Fails, bind_apply_of_some h]

theorem fails_bind_left {x : Attempt σ α} {s : σ} (h : Fails x s) {f : α → Attempt σ β} :
    Fails (x >>= f) s := by
  rcases hxs : x s with ⟨_ | a, s'⟩
  · rw [Fails, bind_apply_of_none hxs]
  · rw [Fails, hxs] at h
    cases h

/-- What fails after every result of `x` fails after `x`. -/
theorem fails_bind {x : Attempt σ α} {s : σ} {f : α → Attempt σ β}
    (h : ∀ a s', x s = (some a, s') → Fails (f a) s') : Fails (x >>= f) s := by
  rcases hxs : x s with ⟨_ | a, s'⟩
  · rw [Fails, bind_apply_of_none hxs]
  · rw [Fails, bind_apply_of_some hxs]
    exact h a s' hxs

theorem fails_commit {o : Fate} (h : o ≠ .passes) {t : σ → Option (α × σ)} {s : σ} :
    Fails (commit o t) s := by
  rcases o with _ | _ | _
  · exact absurd rfl h
  · rw [Fails, commit_raises_uncommitted]
  · cases ht : t s with
    | none => rw [Fails, commit_refused ht]
    | some r => rw [Fails, commit_raises_committed ht]

end Attempt

end RagLeap
