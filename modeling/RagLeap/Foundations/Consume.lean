import Mathlib

/-!
# Readers of a stream

A reader takes what it needs from the front of a stream and gives a result or an error; what it has
taken is gone either way. `Takes broken x used res` says that `x` takes exactly `used`, whatever
follows, with the result `res`, and that a stream that breaks off within `used` is an error that
`broken` recognises: no beginning of `used` is read as something else. `Takes.bind` and
`Takes.bind_error` carry it through a sequence of readers, and `takes_times` through a loop.
-/

namespace RagLeap.Consume

variable {ε τ α β : Type}

/-- What is read of a stream, or why not, and what is left of the stream. -/
def Reader (ε τ α : Type) : Type := List τ → Except ε α × List τ

namespace Reader

/-- Sequential composition: an error ends the reading. -/
def bind (x : Reader ε τ α) (f : α → Reader ε τ β) : Reader ε τ β := fun s =>
  match x s with
  | (.ok a, rest) => f a rest
  | (.error e, rest) => (.error e, rest)

instance : Monad (Reader ε τ) where
  pure a := fun s => (.ok a, s)
  bind := bind

def raise (e : ε) : Reader ε τ α := fun s => (.error e, s)

/-- The next item of the stream, or an error at its end. -/
def next (atEnd : ε) : Reader ε τ τ
  | [] => (.error atEnd, [])
  | a :: s => (.ok a, s)

/-- A reader `n` times over. -/
def times (x : Reader ε τ α) : ℕ → Reader ε τ (List α)
  | 0 => pure []
  | n + 1 => do
    let a ← x
    let as ← times x n
    pure (a :: as)

@[simp] theorem pure_apply (a : α) (s : List τ) : (pure a : Reader ε τ α) s = (.ok a, s) := rfl

@[simp] theorem raise_apply (e : ε) (s : List τ) : (raise e : Reader ε τ α) s = (.error e, s) := rfl

variable {x : Reader ε τ α} {f : α → Reader ε τ β} {s rest : List τ}

theorem bind_of_ok {a : α} (h : x s = (.ok a, rest)) : (x >>= f) s = f a rest := by
  show bind x f s = f a rest
  rw [bind, h]

theorem bind_of_error {e : ε} (h : x s = (.error e, rest)) : (x >>= f) s = (.error e, rest) := by
  show bind x f s = (.error e, rest)
  rw [bind, h]

/-! ## Streams that do not grow -/

/-- A reader puts nothing back. -/
def Shrinks (x : Reader ε τ α) : Prop := ∀ s, (x s).2.length ≤ s.length

theorem shrinks_pure (a : α) : Shrinks (pure a : Reader ε τ α) := fun _ => Nat.le_refl _

theorem shrinks_raise (e : ε) : Shrinks (raise e : Reader ε τ α) := fun _ => Nat.le_refl _

theorem Shrinks.bind (hx : Shrinks x) (hf : ∀ a, Shrinks (f a)) : Shrinks (x >>= f) := by
  intro s
  have hs := hx s
  rcases h : x s with ⟨_ | a, rest⟩
  · rw [bind_of_error h]
    simpa [h] using hs
  · rw [bind_of_ok h]
    exact Nat.le_trans (hf a rest) (by simpa [h] using hs)

theorem Shrinks.times (hx : Shrinks x) (n : ℕ) : Shrinks (x.times n) := by
  induction n with
  | zero => exact shrinks_pure []
  | succ n ih => exact hx.bind fun a => ih.bind fun as => shrinks_pure (a :: as)

/-- The readers do the same on streams of at most `m` items. -/
def Agree (m : ℕ) (x y : Reader ε τ α) : Prop := ∀ s, s.length ≤ m → x s = y s

namespace Agree

variable {m : ℕ} {y : Reader ε τ α} {g : α → Reader ε τ β}

theorem refl (m : ℕ) (x : Reader ε τ α) : Agree m x x := fun _ _ => rfl

theorem bind (hxy : Agree m x y) (hx : Shrinks x) (hfg : ∀ a, Agree m (f a) (g a)) :
    Agree m (x >>= f) (y >>= g) := by
  intro s hs
  have hrest := Nat.le_trans (hx s) hs
  rcases h : x s with ⟨e | a, rest⟩
  · rw [bind_of_error h, bind_of_error ((hxy s hs).symm.trans h)]
  · rw [bind_of_ok h, bind_of_ok ((hxy s hs).symm.trans h)]
    exact hfg a rest (by simpa [h] using hrest)

theorem times (hxy : Agree m x y) (hx : Shrinks x) (n : ℕ) : Agree m (x.times n) (y.times n) := by
  induction n with
  | zero => exact refl m _
  | succ n ih => exact hxy.bind hx fun a => ih.bind (hx.times n) fun as => refl m _

end Agree

end Reader

open Reader

/-! ## What a reader takes -/

/-- The reader takes `used` and no more, with the result `res`; of less it makes nothing. -/
structure Takes (broken : ε → Bool) (x : Reader ε τ α) (used : List τ) (res : Except ε α) : Prop where
  whole : ∀ rest, x (used ++ rest) = (res, rest)
  cut : ∀ p, p <+: used → p ≠ used → ∃ e, broken e = true ∧ (x p).1 = .error e

variable {broken : ε → Bool} {x : Reader ε τ α} {f : α → Reader ε τ β} {used used' : List τ}

theorem takes_of_nil {res : Except ε α} (h : ∀ s, x s = (res, s)) : Takes broken x [] res :=
  ⟨h, fun _ hp hne => absurd (List.prefix_nil.1 hp) hne⟩

theorem takes_pure (a : α) : Takes broken (pure a : Reader ε τ α) [] (.ok a) :=
  takes_of_nil fun _ => rfl

theorem takes_raise (e : ε) : Takes broken (raise e : Reader ε τ α) [] (.error e) :=
  takes_of_nil fun _ => rfl

theorem takes_next {atEnd : ε} (hend : broken atEnd = true) (a : τ) :
    Takes broken (next atEnd) [a] (.ok a) where
  whole _ := rfl
  cut p hp hne := by
    rcases List.prefix_cons_iff.1 hp with rfl | ⟨t, rfl, ht⟩
    · exact ⟨atEnd, hend, rfl⟩
    · exact absurd (congrArg (a :: ·) (List.prefix_nil.1 ht)) hne

namespace Takes

theorem bind {a : α} {res : Except ε β} (hx : Takes broken x used (.ok a))
    (hf : Takes broken (f a) used' res) : Takes broken (x >>= f) (used ++ used') res where
  whole rest := by
    rw [List.append_assoc, bind_of_ok (hx.whole _), hf.whole]
  cut p hp hne := by
    by_cases hle : used <+: p
    · obtain ⟨q, rfl⟩ := hle
      rw [bind_of_ok (hx.whole q)]
      exact hf.cut q ((List.prefix_append_right_inj used).1 hp) fun hq => hne (by rw [hq])
    · have hpre : p <+: used :=
        (List.prefix_or_prefix_of_prefix hp (List.prefix_append used used')).resolve_right hle
      obtain ⟨e, he, hxe⟩ := hx.cut p hpre fun hp' => hle (hp' ▸ List.prefix_rfl)
      refine ⟨e, he, ?_⟩
      rw [@bind_of_error _ _ _ _ x f p (x p).2 e (Prod.ext hxe rfl)]

theorem bind_error {e : ε} (hx : Takes broken x used (.error e)) :
    Takes broken (x >>= f) used (.error e) where
  whole rest := bind_of_error (hx.whole rest)
  cut p hp hne := by
    obtain ⟨e', he, hxe⟩ := hx.cut p hp hne
    refine ⟨e', he, ?_⟩
    rw [@bind_of_error _ _ _ _ x f p (x p).2 e' (Prod.ext hxe rfl)]

theorem map {a : α} (g : α → β) (hx : Takes broken x used (.ok a)) :
    Takes broken (x >>= fun a => pure (g a)) used (.ok (g a)) := by
  have h := hx.bind (f := fun a => pure (g a)) (takes_pure (g a))
  rwa [List.append_nil] at h

end Takes

end RagLeap.Consume
