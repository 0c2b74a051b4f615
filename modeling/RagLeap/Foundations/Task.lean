import RagLeap.Foundations.Prog

/-!
# Programs with several kinds of exceptions

A `Task` is a program whose result may be an exception of a type of its own; `Proc` is the case of
one exception. `Task.follows_bind` and `Task.follows_tryCatch` are the rules of `Prog.Follows` for
sequences and handlers.
-/

namespace RagLeap

/-- A program that may raise. -/
abbrev Task (S : Signature) (ε α : Type) : Type := ExceptT ε (Prog S) α

namespace Task

variable {S : Signature} {ε α β : Type}

/-- Issues one statement and returns the answer. -/
def ask (o : S.Op) : Task S ε (S.Res o) := ExceptT.mk (.op o fun r => .ret (.ok r))

@[simp] theorem run_pure (a : α) : (pure a : Task S ε α).run = .ret (.ok a) := rfl

@[simp] theorem run_throw (e : ε) : (throw e : Task S ε α).run = .ret (.error e) := rfl

@[simp] theorem run_ask (o : S.Op) :
    (ask o : Task S ε (S.Res o)).run = .op o fun r => .ret (.ok r) := rfl

theorem run_bind (x : Task S ε α) (f : α → Task S ε β) :
    (x >>= f).run = x.run >>= fun
      | .ok a => (f a).run
      | .error e => .ret (.error e) := rfl

theorem run_tryCatch (x : Task S ε α) (handler : ε → Task S ε α) :
    (tryCatch x handler).run = x.run >>= fun
      | .ok a => .ret (.ok a)
      | .error e => (handler e).run := by
  change (ExceptT.tryCatch x handler).run = _
  unfold ExceptT.tryCatch
  change x.run >>= _ = _
  congr 1

variable {P : Protocol S} {φ : P.Phase}

theorem follows_ask {o : S.Op} {Q : P.Phase → Except ε (S.Res o) → Prop} (ho : P.permits φ o)
    (hnext : ∀ r φ', P.next φ o r = some φ' → Q φ' (.ok r)) :
    (ask o : Task S ε (S.Res o)).run.Follows P Q φ :=
  ⟨ho, hnext⟩

/-- Sequencing: the continuation runs where the first program returns, and is skipped where it
raises. -/
theorem follows_bind {x : Task S ε α} {f : α → Task S ε β} {Q : P.Phase → Except ε α → Prop}
    {Q' : P.Phase → Except ε β → Prop} (hx : x.run.Follows P Q φ)
    (hf : ∀ φ a, Q φ (.ok a) → (f a).run.Follows P Q' φ)
    (he : ∀ φ e, Q φ (.error e) → Q' φ (.error e)) : (x >>= f).run.Follows P Q' φ := by
  rw [run_bind]
  refine hx.bind fun φ r h => ?_
  cases r with
  | ok a => exact hf φ a h
  | error e => exact he φ e h

/-- A handler runs where the program raises. -/
theorem follows_tryCatch {x : Task S ε α} {handler : ε → Task S ε α}
    {Q Q' : P.Phase → Except ε α → Prop} (hx : x.run.Follows P Q φ)
    (hok : ∀ φ a, Q φ (.ok a) → Q' φ (.ok a))
    (hhandler : ∀ φ e, Q φ (.error e) → (handler e).run.Follows P Q' φ) :
    (tryCatch x handler).run.Follows P Q' φ := by
  rw [run_tryCatch]
  refine hx.bind fun φ r h => ?_
  cases r with
  | ok a => exact hok φ a h
  | error e => exact hhandler φ e h

end Task

end RagLeap
