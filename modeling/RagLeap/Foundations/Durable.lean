import RagLeap.Foundations.Prog

/-!
# Programs on a store, one commit a statement

When every statement of a `Prog` is committed on its own, an exception leaves the store as the
statements before it made it. `Prog.final` is a run to the end; `Prog.Cut` relates a store to every
store that a run from it passes through. `Prog.Along` is the triple for both: an invariant that
holds throughout, and a postcondition. It is proved along the program text (`Along.bind`,
`Along.forEach`).
-/

namespace RagLeap.Prog

variable {S : Signature} {σ α β : Type}

/-- One statement after another for the entries of a list. -/
def forEach (f : β → Prog S Unit) : List β → Prog S Unit
  | [] => ret ()
  | b :: l => f b >>= fun _ => forEach f l

variable (act : (o : S.Op) → σ → S.Res o × σ)

/-- The result of a run that nothing interrupts, and the store it leaves. -/
def final : Prog S α → σ → α × σ
  | ret a, s => (a, s)
  | op o k, s => final (k (act o s).1) (act o s).2

/-- A run from `s` that is cut somewhere leaves `s'`. -/
inductive Cut : Prog S α → σ → σ → Prop
  | here (p : Prog S α) (s : σ) : Cut p s s
  | step {o : S.Op} {k : S.Res o → Prog S α} {s s' : σ}
      (h : Cut (k (act o s).1) (act o s).2 s') : Cut (op o k) s s'

/-- The store a run leaves that is cut before its statement number `n`, counted from zero. -/
def cutAt : ℕ → Prog S α → σ → σ
  | n + 1, op o k, s => cutAt n (k (act o s).1) (act o s).2
  | _, _, s => s

@[simp] theorem cutAt_zero (p : Prog S α) (s : σ) : cutAt act 0 p s = s := by
  cases p <;> rfl

@[simp] theorem cutAt_ret (n : ℕ) (a : α) (s : σ) : cutAt act n (ret a) s = s := by
  cases n <;> rfl

theorem cut_cutAt (n : ℕ) (p : Prog S α) (s : σ) : Cut act p s (cutAt act n p s) := by
  induction n generalizing p s with
  | zero => exact .here p s
  | succ n ih =>
    cases p with
    | ret a => exact .here _ s
    | op o k => exact .step (ih _ _)

/-- A run that is cut late enough is at its end. -/
theorem exists_cutAt_eq_final (p : Prog S α) (s : σ) :
    ∃ N, ∀ n, N ≤ n → cutAt act n p s = (p.final act s).2 := by
  induction p generalizing s with
  | ret a => exact ⟨0, fun n _ => cutAt_ret act n a s⟩
  | op o k ih =>
    obtain ⟨N, hN⟩ := ih (act o s).1 (act o s).2
    refine ⟨N + 1, fun n hn => ?_⟩
    obtain ⟨n, rfl⟩ : ∃ m, n = m + 1 := ⟨n - 1, by omega⟩
    exact hN n (by omega)

theorem final_bind_ret (p : Prog S α) (b : β) (s : σ) :
    (p >>= fun _ => ret b).final act s = (b, (p.final act s).2) := by
  induction p generalizing s with
  | ret a => rfl
  | op o k ih => exact ih _ _

/-- The end of a run is on its way, too. -/
theorem cut_final (p : Prog S α) (s : σ) : Cut act p s (p.final act s).2 := by
  induction p generalizing s with
  | ret a => exact .here _ s
  | op o k ih => exact .step (ih _ _)

/-- What every statement keeps, a run that is cut keeps. -/
theorem Cut.keeps {I : σ → Prop} (hact : ∀ o s, I s → I (act o s).2) {p : Prog S α} {s s' : σ}
    (h : Cut act p s s') (hs : I s) : I s' := by
  induction h with
  | here p s => exact hs
  | step h ih => exact ih (hact _ _ hs)

/-- Every store on the way meets `I`, and the last one `Q` with the result. -/
def Along (I : σ → Prop) (Q : α → σ → Prop) : Prog S α → σ → Prop
  | ret a, s => I s ∧ Q a s
  | op o k, s => I s ∧ Along I Q (k (act o s).1) (act o s).2

namespace Along

variable {act} {I : σ → Prop} {Q : α → σ → Prop} {s s' : σ}

theorem start {p : Prog S α} (h : p.Along act I Q s) : I s := by
  cases p with
  | ret a => exact h.1
  | op o k => exact h.1

theorem final {p : Prog S α} (h : p.Along act I Q s) : Q (p.final act s).1 (p.final act s).2 := by
  induction p generalizing s with
  | ret a => exact h.2
  | op o k ih => exact ih _ h.2

theorem cut {p : Prog S α} (hcut : p.Cut act s s') (h : p.Along act I Q s) : I s' := by
  induction hcut with
  | here p s => exact h.start
  | step hcut ih => exact ih h.2

theorem mono {I' : σ → Prop} {Q' : α → σ → Prop} {p : Prog S α} (h : p.Along act I Q s)
    (hI : ∀ s, I s → I' s) (hQ : ∀ a s, Q a s → Q' a s) : p.Along act I' Q' s := by
  induction p generalizing s with
  | ret a => exact ⟨hI s h.1, hQ a s h.2⟩
  | op o k ih => exact ⟨hI s h.1, ih _ h.2⟩

/-- Sequencing: the continuation starts where the first program ends. -/
theorem bind {f : α → Prog S β} {Q' : β → σ → Prop} {p : Prog S α} (hp : p.Along act I Q s)
    (hf : ∀ a s, Q a s → (f a).Along act I Q' s) : (p >>= f).Along act I Q' s := by
  induction p generalizing s with
  | ret a => exact hf a s hp.2
  | op o k ih => exact ⟨hp.1, ih _ hp.2⟩

/-- A statement and what follows its answer. -/
theorem call_bind {o : S.Op} {f : S.Res o → Prog S α} (h : I s)
    (hf : (f (act o s).1).Along act I Q (act o s).2) : (op o ret >>= f).Along act I Q s :=
  ⟨h, hf⟩

/-- A loop: `J` holds of the entries that are done, and gives the invariant. -/
theorem forEach {f : β → Prog S Unit} {l : List β} (J : List β → σ → Prop)
    (hI : ∀ done s, done <+: l → J done s → I s)
    (hf : ∀ done b s, done ++ [b] <+: l → J done s →
      (f b).Along act I (fun _ s' => J (done ++ [b]) s') s)
    (h : J [] s) : (forEach f l).Along act I (fun _ s' => J l s') s := by
  have hrest : ∀ rest done s, done ++ rest = l → J done s →
      (Prog.forEach f rest).Along act I (fun _ s' => J l s') s := by
    intro rest
    induction rest with
    | nil =>
      intro done s hl hJ
      obtain rfl : done = l := by rw [← hl, List.append_nil]
      exact ⟨hI done s (List.prefix_refl _) hJ, hJ⟩
    | cons b rest ih =>
      intro done s hl hJ
      have hl' : done ++ [b] ++ rest = l := by rw [← hl, List.append_assoc, List.singleton_append]
      exact (hf done b s ⟨rest, hl'⟩ hJ).bind fun _ s' hJ' => ih _ s' hl' hJ'
  exact hrest l [] s rfl h

end Along

end RagLeap.Prog
