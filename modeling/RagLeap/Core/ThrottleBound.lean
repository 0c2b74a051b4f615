import RagLeap.Core.AuthThrottle

/-!
# How many clients the throttle remembers

`_make_room` leaves room for one more client unless the lockouts alone fill the tables. With two
failures allowed a client that is locked out was in the tables before, so the lockouts never use
up the last place (`Bounded.step`). With one failure allowed every client is locked out at once,
and no lockout is ever given up for room (`after_lockouts`). `tracked_le_iff` puts both together.
-/

namespace RagLeap.AuthThrottle

section Bound

variable {κ : Type} [DecidableEq κ] {env : Environ} {s : Throttle κ}

/-- The number of clients in the tables. -/
def tracked (s : Throttle κ) : ℕ := s.failures.size + s.lockedUntil.size

/-- The tables keep to their bound, and the lockouts leave a place. -/
structure Bounded (s : Throttle κ) : Prop where
  tracked_le : tracked s ≤ MAX_TRACKED_CLIENTS
  locked_lt : s.lockedUntil.size < MAX_TRACKED_CLIENTS

omit [DecidableEq κ] in
theorem bounded_init : Bounded (Throttle.init : Throttle κ) :=
  ⟨Nat.zero_le _, Nat.succ_pos _⟩

omit [DecidableEq κ] in
/-- `_make_room` takes clients out only, until one more fits in or no failures are left. -/
theorem makeRoom_spec (env : Environ) (s : Throttle κ) (now : ℚ) :
    tracked (makeRoom env s now) ≤ tracked s ∧
      (makeRoom env s now).lockedUntil.size ≤ s.lockedUntil.size ∧
      (tracked (makeRoom env s now) < MAX_TRACKED_CLIENTS ∨
        (makeRoom env s now).failures.items = []) := by
  unfold makeRoom
  split
  · rename_i hroom
    exact ⟨le_refl _, le_refl _, .inl hroom⟩
  · dsimp only [tracked]
    have hlocks : (unexpired s.lockedUntil now).size ≤ s.lockedUntil.size :=
      Dict.size_filter_le _ _
    have hrecent : (recent env s.failures now).size ≤ s.failures.size := Dict.size_filter_le _ _
    have hpop := (recent env s.failures now).size_popWhile_le
      fun n => MAX_TRACKED_CLIENTS ≤ n + (unexpired s.lockedUntil now).size
    have hstop := (recent env s.failures now).popWhile_stops
      fun n => MAX_TRACKED_CLIENTS ≤ n + (unexpired s.lockedUntil now).size
    refine ⟨by omega, hlocks, hstop.symm.imp_left fun h => ?_⟩
    exact not_le.1 (of_decide_eq_false h)

omit [DecidableEq κ] in
/-- Where the lockouts leave a place, there is one after `_make_room`. -/
theorem Bounded.makeRoom_lt (h : Bounded s) (env : Environ) (now : ℚ) :
    tracked (makeRoom env s now) < MAX_TRACKED_CLIENTS := by
  obtain ⟨-, hlocked, hroom⟩ := makeRoom_spec env s now
  rcases hroom with hroom | hnone
  · exact hroom
  · have hzero : (makeRoom env s now).failures.size = 0 := by rw [Dict.size, hnone]; rfl
    have hlt := h.locked_lt
    unfold tracked
    omega

/-- A client whose deque holds two failures was in the failure table. -/
theorem get?_of_two_le_counted {now : ℚ} {c : κ} (h : 2 ≤ (counted env s now c).length) :
    ∃ q, s.failures.get? c = some q := by
  cases hq : s.failures.get? c with
  | none => simp [counted, hq] at h
  | some q => exact ⟨q, rfl⟩

/-- **With two failures allowed, every call keeps the tables within their bound.** -/
theorem Bounded.step (h : Bounded s) (henv : 2 ≤ maxFailures env) (e : ℚ × Call κ) :
    Bounded (AuthThrottle.step env s e).2 := by
  obtain ⟨now, call⟩ := e
  have hle := h.tracked_le
  have hlt := h.locked_lt
  cases call with
  | recordFailure c =>
    have hroom := h.makeRoom_lt env now
    simp only [AuthThrottle.step, recordFailure]
    unfold tracked at hroom
    split_ifs with hmax
    · -- the client leaves the failures as it enters the lockouts
      obtain ⟨q, hq⟩ := get?_of_two_le_counted (henv.trans hmax)
      have herase := Dict.size_erase_lt hq
      have hset := (makeRoom env s now).lockedUntil.size_set_le c (now + lockoutSeconds env)
      constructor
      · unfold tracked
        dsimp only
        omega
      · dsimp only
        omega
    · have hset := (makeRoom env s now).failures.size_set_le c
        (counted env (makeRoom env s now) now c)
      constructor
      · unfold tracked
        dsimp only
        omega
      · dsimp only
        omega
  | recordSuccess c =>
    have herase := s.failures.size_erase_le c
    unfold tracked at hle
    constructor
    · simp only [AuthThrottle.step, recordSuccess, tracked]
      omega
    · exact hlt
  | blockedSeconds c =>
    have herase := s.lockedUntil.size_erase_le c
    simp only [AuthThrottle.step, blockedSeconds]
    split_ifs
    · exact h
    · unfold tracked at hle
      constructor
      · unfold tracked
        dsimp only
        omega
      · dsimp only
        omega

theorem Bounded.after (h : Bounded s) (henv : 2 ≤ maxFailures env) (calls : List (ℚ × Call κ)) :
    Bounded (AuthThrottle.after env s calls) := by
  induction calls generalizing s with
  | nil => exact h
  | cons e calls ih => exact ih (h.step henv e)

end Bound

/-! ## One failure allowed -/

/-- The clients `n` numbered by their length, each failing once at clock reading 0. -/
def client (n : ℕ) : List Char := List.replicate n 'x'

theorem client_injective : Function.Injective client := fun m n h => by
  simpa [client] using congrArg List.length h

def lockouts (n : ℕ) : List (ℚ × Call (List Char)) :=
  (List.range n).map fun i => (0, .recordFailure (client i))

/-- The lockouts of the clients below `n`. -/
def lockTable (env : Environ) (n : ℕ) : Dict (List Char) ℚ :=
  ⟨(List.range n).map fun i => (client i, 0 + lockoutSeconds env), by
    rw [List.map_map]
    exact List.nodup_range.map client_injective⟩

theorem get?_lockTable (env : Environ) (n : ℕ) : (lockTable env n).get? (client n) = none := by
  rw [Option.eq_none_iff_forall_ne_some]
  intro u hu
  rw [Dict.get?_eq_some_iff] at hu
  obtain ⟨i, hi, he⟩ := List.mem_map.1 hu
  have hin : i = n := client_injective (Prod.mk.inj he).1
  exact (List.mem_range.1 hi).ne hin

/-- No lockout of the table is over, so none is taken out. -/
theorem makeRoom_lockTable (env : Environ) (n : ℕ) :
    makeRoom env ⟨Dict.empty, lockTable env n⟩ 0 = ⟨Dict.empty, lockTable env n⟩ := by
  have hkept : unexpired (lockTable env n) 0 = lockTable env n := by
    rw [Dict.ext_iff]
    apply List.filter_eq_self.2
    intro e he
    obtain ⟨i, -, rfl⟩ := List.mem_map.1 he
    have := one_le_lockoutSeconds env
    simpa using Nat.one_le_iff_ne_zero.1 this
  rw [makeRoom, hkept]
  split_ifs
  · rfl
  · rfl

/-- **With one failure allowed, a failing client is locked out however full the tables are.** -/
theorem step_lockTable {env : Environ} (henv : maxFailures env = 1) (n : ℕ) :
    (step env ⟨Dict.empty, lockTable env n⟩ (0, .recordFailure (client n))).2 =
      ⟨Dict.empty, lockTable env (n + 1)⟩ := by
  have hcounted : counted env ⟨Dict.empty, lockTable env n⟩ 0 (client n) = [0] := by
    simp [counted]
  have hset : (lockTable env n).set (client n) (0 + lockoutSeconds env) =
      lockTable env (n + 1) := by
    rw [Dict.ext_iff, Dict.items_set_of_none (get?_lockTable env n)]
    simp [lockTable, List.range_succ]
  have hmax : [(0 : ℚ)].length ≥ maxFailures env := henv.le
  simp only [step, recordFailure, makeRoom_lockTable, hcounted, hset]
  rw [if_pos hmax]
  rfl

theorem after_lockouts {env : Environ} (henv : maxFailures env = 1) (n : ℕ) :
    after env .init (lockouts n) = ⟨Dict.empty, lockTable env n⟩ := by
  induction n with
  | zero => rfl
  | succ n ih =>
    rw [lockouts, List.range_succ, List.map_append, ← lockouts, after_append, ih]
    exact step_lockTable henv n

theorem tracked_lockouts {env : Environ} (henv : maxFailures env = 1) (n : ℕ) :
    tracked (after env .init (lockouts n)) = n := by
  rw [after_lockouts henv]
  simp [tracked, Dict.size, Dict.empty, lockTable]

/-- **The tables keep to their bound along every history of calls exactly where the settings
allow a client a second failure.** -/
theorem tracked_le_iff (env : Environ) :
    (∀ calls : List (ℚ × Call (List Char)),
        tracked (after env .init calls) ≤ MAX_TRACKED_CLIENTS) ↔ 2 ≤ maxFailures env := by
  constructor
  · intro h
    have hone : 1 ≤ maxFailures env := le_intEnv _ _ (by decide)
    by_contra hlt
    have hfull := h (lockouts (MAX_TRACKED_CLIENTS + 1))
    rw [tracked_lockouts (by omega)] at hfull
    omega
  · intro henv calls
    exact (bounded_init.after henv calls).tracked_le

/-- One client more than the bound, each failing once where one failure is allowed. -/
theorem tracked_lockouts_exceeds :
    ¬ tracked (after ⟨some 1, none, none⟩ .init (lockouts (MAX_TRACKED_CLIENTS + 1))) ≤
      MAX_TRACKED_CLIENTS := by
  rw [tracked_lockouts (by decide)]
  omega

end RagLeap.AuthThrottle
