import Mathlib
import RagLeap.Foundations.Dict
import RagLeap.Foundations.Text

/-!
# Failed-login throttling

The tables of `core/auth_throttle.py`: the recent failures and the lockouts of each client, bounded
together by `MAX_TRACKED_CLIENTS`. Clock readings are rationals.

The lockout law speaks about a history of calls: `sinceReset` are the failures a client recorded
since its last success or lockout. `Tracks` relates them to what the table still holds, and is
kept by every call at which the client's own record is not evicted (`Keeps`).
`blockedSeconds_pos_of_maxFailures` is the law for the histories meeting that condition.
-/

namespace RagLeap.AuthThrottle

/-! ## Settings -/

def MAX_TRACKED_CLIENTS : ℕ := 10000

/-- The process environment; `none` where the variable is not spelled in digits. -/
structure Environ where
  AUTH_MAX_FAILURES : Option ℕ
  AUTH_WINDOW_SECONDS : Option ℕ
  AUTH_LOCKOUT_SECONDS : Option ℕ

def intEnv (raw : Option ℕ) (default low high : ℕ) : ℕ :=
  match raw with
  | some n => max low (min high n)
  | none => default

def maxFailures (env : Environ) : ℕ := intEnv env.AUTH_MAX_FAILURES 10 1 1000

def windowSeconds (env : Environ) : ℕ := intEnv env.AUTH_WINDOW_SECONDS 300 1 86400

def lockoutSeconds (env : Environ) : ℕ := intEnv env.AUTH_LOCKOUT_SECONDS 900 1 86400

theorem le_intEnv (raw : Option ℕ) {default low : ℕ} (high : ℕ) (h : low ≤ default) :
    low ≤ intEnv raw default low high := by
  cases raw with
  | none => exact h
  | some n => exact le_max_left _ _

theorem one_le_lockoutSeconds (env : Environ) : 1 ≤ lockoutSeconds env := le_intEnv _ _ (by simp)

/-! ## The tables and the calls -/

/-- `_failures` and `_locked_until`. -/
structure Throttle (κ : Type) where
  failures : Dict κ (List ℚ)
  lockedUntil : Dict κ ℚ

variable {κ : Type} [DecidableEq κ]

/-- The tables of a fresh process. -/
def Throttle.init : Throttle κ := ⟨Dict.empty, Dict.empty⟩

/-- Seconds the client must still wait, or 0 if it is not locked out. -/
def blockedSeconds (s : Throttle κ) (now : ℚ) (client : κ) : ℕ × Throttle κ :=
  let unlock := (s.lockedUntil.get? client).getD 0
  if unlock > now then (max 1 ⌊unlock - now + 999 / 1000⌋.toNat, s)
  else (0, { s with lockedUntil := s.lockedUntil.erase client })

/-- The lockouts `_make_room` keeps. -/
def unexpired (locks : Dict κ ℚ) (now : ℚ) : Dict κ ℚ := locks.filter fun _ u => ¬ u ≤ now

/-- The failure records `_make_room` does not count as stale. -/
def recent (env : Environ) (failures : Dict κ (List ℚ)) (now : ℚ) : Dict κ (List ℚ) :=
  failures.filter fun _ q =>
    match q.getLast? with
    | none => false
    | some last => ¬ now - last > windowSeconds env

def makeRoom (env : Environ) (s : Throttle κ) (now : ℚ) : Throttle κ :=
  if s.failures.size + s.lockedUntil.size < MAX_TRACKED_CLIENTS then s
  else
    let locks := unexpired s.lockedUntil now
    ⟨(recent env s.failures now).popWhile fun n => MAX_TRACKED_CLIENTS ≤ n + locks.size, locks⟩

/-- The client's deque once its old failures are popped and the new one is appended. -/
def counted (env : Environ) (s : Throttle κ) (now : ℚ) (client : κ) : List ℚ :=
  ((s.failures.get? client).getD []).dropWhile (fun x => now - x > windowSeconds env) ++ [now]

/-- Count a wrong key: the lockout length if this failure triggered one, else 0. -/
def recordFailure (env : Environ) (s : Throttle κ) (now : ℚ) (client : κ) : ℕ × Throttle κ :=
  let s := makeRoom env s now
  let q := counted env s now client
  if q.length ≥ maxFailures env then
    (lockoutSeconds env,
      ⟨s.failures.erase client, s.lockedUntil.set client (now + lockoutSeconds env)⟩)
  else (0, { s with failures := s.failures.set client q })

def recordSuccess (s : Throttle κ) (client : κ) : Throttle κ :=
  { s with failures := s.failures.erase client }

/-! ## Histories -/

inductive Call (κ : Type)
  | recordFailure (client : κ)
  | recordSuccess (client : κ)
  | blockedSeconds (client : κ)

/-- One call at a clock reading: its answer (0 for none) and the tables after it. -/
def step (env : Environ) (s : Throttle κ) : ℚ × Call κ → ℕ × Throttle κ
  | (now, .recordFailure c) => recordFailure env s now c
  | (_, .recordSuccess c) => (0, recordSuccess s c)
  | (now, .blockedSeconds c) => blockedSeconds s now c

/-- The tables after a history of calls. -/
def after (env : Environ) : Throttle κ → List (ℚ × Call κ) → Throttle κ
  | s, [] => s
  | s, e :: es => after env (step env s e).2 es

/-- What one call does to the failures of `c` counted since its last success or lockout. -/
def count (env : Environ) (c : κ) (s : Throttle κ) (fs : List ℚ) : ℚ × Call κ → List ℚ
  | (now, .recordFailure c') =>
    if c' = c then if (recordFailure env s now c).1 = 0 then fs ++ [now] else [] else fs
  | (_, .recordSuccess c') => if c' = c then [] else fs
  | (_, .blockedSeconds _) => fs

/-- The failures of `c` since its last success or lockout, after a history of calls. -/
def sinceReset (env : Environ) (c : κ) : Throttle κ → List ℚ → List (ℚ × Call κ) → List ℚ
  | _, fs, [] => fs
  | s, fs, e :: es => sinceReset env c (step env s e).2 (count env c s fs e) es

/-- The failures no older than the window at a clock reading. -/
def withinWindow (env : Environ) (now : ℚ) (fs : List ℚ) : List ℚ :=
  fs.filter fun x => now - x ≤ windowSeconds env

theorem after_append (env : Environ) (s : Throttle κ) (h h' : List (ℚ × Call κ)) :
    after env s (h ++ h') = after env (after env s h) h' := by
  induction h generalizing s with
  | nil => rfl
  | cons e h ih => exact ih _

theorem sinceReset_append (env : Environ) (c : κ) (s : Throttle κ) (fs : List ℚ)
    (h h' : List (ℚ × Call κ)) :
    sinceReset env c s fs (h ++ h') =
      sinceReset env c (after env s h) (sinceReset env c s fs h) h' := by
  induction h generalizing s fs with
  | nil => rfl
  | cons e h ih => exact ih _ _

/-! ## When a client's record is kept -/

/-- A recorded failure of any client leaves the record of `c` in the table: there is room, or `c`
has no failure within the window, or the unexpired lockouts and the failure records from that of
`c` on fit in. -/
def Keeps (env : Environ) (c : κ) (s : Throttle κ) : ℚ × Call κ → Prop
  | (now, .recordFailure _) =>
    s.failures.size + s.lockedUntil.size < MAX_TRACKED_CLIENTS ∨
      (recent env s.failures now).get? c = none ∨
      ((recent env s.failures now).onFrom c).length + (unexpired s.lockedUntil now).size <
        MAX_TRACKED_CLIENTS
  | _ => True

/-- `Keeps` before every call of a history. -/
def KeepsAlong (env : Environ) (c : κ) : Throttle κ → List (ℚ × Call κ) → Prop
  | _, [] => True
  | s, e :: es => Keeps env c s e ∧ KeepsAlong env c (step env s e).2 es

theorem keepsAlong_append {env : Environ} {c : κ} {s : Throttle κ} {h h' : List (ℚ × Call κ)} :
    KeepsAlong env c s (h ++ h') ↔
      KeepsAlong env c s h ∧ KeepsAlong env c (after env s h) h' := by
  induction h generalizing s with
  | nil => simp [KeepsAlong, after]
  | cons e h ih => exact (and_congr_right' ih).trans and_assoc.symm

/-- `fs` are failures up to `now`, and those the table no longer holds for `c` are older than the
window. -/
structure Tracks (env : Environ) (c : κ) (now : ℚ) (s : Throttle κ) (fs : List ℚ) : Prop where
  sorted : fs.Pairwise (· ≤ ·)
  le_now : ∀ x ∈ fs, x ≤ now
  held : ∃ old, fs = old ++ (s.failures.get? c).getD [] ∧ ∀ x ∈ old, now - x > windowSeconds env

namespace Tracks

variable {env : Environ} {c : κ} {now : ℚ} {s : Throttle κ} {fs : List ℚ}

theorem nil (h : s.failures.get? c = none) : Tracks env c now s [] :=
  ⟨.nil, by simp, [], by simp [h], by simp⟩

theorem advance {t : ℚ} (h : Tracks env c now s fs) (ht : now ≤ t) : Tracks env c t s fs := by
  obtain ⟨old, heq, hold⟩ := h.held
  exact ⟨h.sorted, fun x hx => (h.le_now x hx).trans ht, old, heq, fun x hx => by
    linarith [hold x hx]⟩

theorem congr {s' : Throttle κ} (h : Tracks env c now s fs)
    (hs : s'.failures.get? c = s.failures.get? c) : Tracks env c now s' fs :=
  ⟨h.sorted, h.le_now, hs ▸ h.held⟩

/-- A record whose last failure is older than the window holds older failures only. -/
theorem of_stale {s' : Throttle κ} {q : List ℚ} (h : Tracks env c now s fs)
    (hq : s.failures.get? c = some q)
    (hstale : ∀ last, q.getLast? = some last → now - last > windowSeconds env)
    (hs : s'.failures.get? c = none) : Tracks env c now s' fs := by
  obtain ⟨old, heq, hold⟩ := h.held
  rw [hq, Option.getD_some] at heq
  refine ⟨h.sorted, h.le_now, fs, by simp [hs], fun x hx => ?_⟩
  rw [heq, List.mem_append] at hx
  rcases hx with hx | hx
  · exact hold x hx
  · have hne : q ≠ [] := List.ne_nil_of_mem hx
    have hsorted : q.Pairwise (· ≤ ·) := (List.pairwise_append.1 (heq ▸ h.sorted)).2.1
    have hle : x ≤ q.getLast hne := by
      rcases List.mem_iff_append.1 hx with ⟨a, b, rfl⟩
      rcases List.eq_nil_or_concat b with rfl | ⟨b, y, rfl⟩
      · simp
      · have := (List.pairwise_append.1 hsorted).2.1
        have := (List.pairwise_cons.1 this).1 y (by simp)
        simpa using this
    linarith [hstale _ (List.getLast?_eq_some_getLast hne)]

theorem makeRoom {c' : κ} (h : Tracks env c now s fs)
    (hk : Keeps env c s (now, .recordFailure c')) :
    Tracks env c now (AuthThrottle.makeRoom env s now) fs := by
  unfold AuthThrottle.makeRoom
  split_ifs with hroom
  · exact h
  · cases hr : (recent env s.failures now).get? c with
    | none =>
      -- the record of `c` is absent or stale: whatever the eviction loop does, it is gone
      have hgone := Dict.get?_popWhile_of_none
        (p := fun n => MAX_TRACKED_CLIENTS ≤ n + (unexpired s.lockedUntil now).size) hr
      rw [recent, Dict.get?_filter] at hr
      cases hq : s.failures.get? c with
      | none => exact h.congr (hgone.trans hq.symm)
      | some q =>
        refine h.of_stale hq (fun last hlast => ?_) hgone
        rw [hq, Option.filter_eq_none_iff] at hr
        have := hr q rfl
        simp only [hlast, not_lt, decide_eq_true_eq, not_le] at this
        exact this
    | some q =>
      have hlt := (hk.resolve_left hroom).resolve_left (by simp [hr])
      have hkept := (recent env s.failures now).get?_popWhile (k := c)
        (p := fun n => MAX_TRACKED_CLIENTS ≤ n + (unexpired s.lockedUntil now).size)
        (by simpa using hlt)
      refine h.congr (hkept.trans ?_)
      rw [hr]
      rw [recent, Dict.get?_filter, Option.filter_eq_some_iff] at hr
      exact hr.1.symm

/-- The record after its old failures are dropped and the new one is appended. -/
theorem append_now (h : Tracks env c now s fs) :
    ∃ old, fs ++ [now] = old ++ counted env s now c ∧
      ∀ x ∈ old, now - x > windowSeconds env := by
  obtain ⟨old, heq, hold⟩ := h.held
  refine ⟨old ++ ((s.failures.get? c).getD []).takeWhile (fun x => now - x > windowSeconds env),
    ?_, fun x hx => ?_⟩
  · rw [heq, counted]
    simp only [List.append_assoc]
    rw [← List.append_assoc (List.takeWhile _ _), List.takeWhile_append_dropWhile]
  · rcases List.mem_append.1 hx with hx | hx
    · exact hold x hx
    · exact of_decide_eq_true (List.all_eq_true.1 List.all_takeWhile x hx)

/-- The law's count is bounded by the length of the record after the new failure. -/
theorem length_withinWindow_le (h : Tracks env c now s fs) :
    (withinWindow env now (fs ++ [now])).length ≤ (counted env s now c).length := by
  obtain ⟨old, heq, hold⟩ := h.append_now
  have hnil : withinWindow env now old = [] :=
    List.filter_eq_nil_iff.2 fun x hx => by simpa only [decide_eq_true_eq, not_le] using hold x hx
  rw [heq, withinWindow, List.filter_append, ← withinWindow, hnil]
  exact List.length_filter_le _ _

/-- **Every call at which the record of `c` is kept preserves what it tracks.** -/
theorem step {t : ℚ} {call : Call κ} (h : Tracks env c now s fs) (ht : now ≤ t)
    (hk : Keeps env c s (t, call)) :
    Tracks env c t (AuthThrottle.step env s (t, call)).2 (count env c s fs (t, call)) := by
  replace h := h.advance ht
  cases call with
  | recordFailure c' =>
    replace h := h.makeRoom hk
    simp only [AuthThrottle.step, count]
    by_cases hc : c' = c
    · subst hc
      obtain ⟨old, heq, hold⟩ := h.append_now
      rw [if_pos rfl, recordFailure]
      split_ifs with hmax hzero hzero
      · exact absurd hzero (Nat.one_le_iff_ne_zero.1 (one_le_lockoutSeconds env))
      · exact .nil (by simp [Dict.get?_erase])
      · refine ⟨?_, ?_, old, by simp [heq, Dict.get?_set], hold⟩
        · exact List.pairwise_append.2 ⟨h.sorted, by simp, by simpa using h.le_now⟩
        · simpa [or_imp, forall_and] using h.le_now
      · exact absurd rfl hzero
    · rw [if_neg hc, recordFailure]
      split_ifs
      · exact h.congr (by simp [Dict.get?_erase, Ne.symm hc])
      · exact h.congr (by simp [Dict.get?_set, Ne.symm hc])
  | recordSuccess c' =>
    simp only [AuthThrottle.step, count]
    split_ifs with hc
    · subst hc
      exact .nil (by simp [recordSuccess, Dict.get?_erase])
    · exact h.congr (by simp [recordSuccess, Dict.get?_erase, Ne.symm hc])
  | blockedSeconds c' =>
    refine h.congr ?_
    simp only [AuthThrottle.step, blockedSeconds]
    split_ifs <;> rfl

end Tracks

theorem Tracks.after {env : Environ} {c : κ} {now t : ℚ} {s : Throttle κ} {fs : List ℚ}
    {h : List (ℚ × Call κ)} (hs : Tracks env c now s fs)
    (hclock : (now :: (h.map Prod.fst ++ [t])).Pairwise (· ≤ ·)) (hk : KeepsAlong env c s h) :
    Tracks env c t (AuthThrottle.after env s h) (sinceReset env c s fs h) := by
  induction h generalizing now s fs with
  | nil => exact hs.advance (by simpa using hclock)
  | cons e h ih =>
    have hle : now ≤ e.1 := (List.pairwise_cons.1 hclock).1 _ (by simp)
    exact ih (hs.step hle hk.1) (List.pairwise_cons.1 hclock).2 hk.2

/-- What is tracked after a history of calls to a fresh process. -/
theorem Tracks.after_init {env : Environ} {c : κ} {t : ℚ} {h : List (ℚ × Call κ)}
    (hclock : (h.map Prod.fst ++ [t]).Pairwise (· ≤ ·)) (hk : KeepsAlong env c .init h) :
    Tracks env c t (AuthThrottle.after env .init h) (sinceReset env c .init [] h) := by
  cases h with
  | nil => exact .nil (Dict.get?_empty c)
  | cons e h =>
    have hinit : Tracks env c e.1 .init [] := .nil (Dict.get?_empty c)
    exact (hinit.step le_rfl hk.1).after hclock hk.2

/-! ## Lockouts last -/

/-- `c` is locked out until `v` at least. -/
def LockedTo (s : Throttle κ) (c : κ) (v : ℚ) : Prop :=
  ∃ u, s.lockedUntil.get? c = some u ∧ v ≤ u

namespace LockedTo

variable {env : Environ} {c : κ} {v : ℚ} {s : Throttle κ}

theorem blockedSeconds_pos {now : ℚ} (h : LockedTo s c v) (hnow : now < v) :
    0 < (blockedSeconds s now c).1 := by
  obtain ⟨u, hu, hv⟩ := h
  rw [blockedSeconds, hu, Option.getD_some, if_pos (hnow.trans_le hv)]
  exact lt_max_of_lt_left Nat.one_pos

theorem makeRoom {now : ℚ} (h : LockedTo s c v) (hnow : now < v) :
    LockedTo (AuthThrottle.makeRoom env s now) c v := by
  unfold AuthThrottle.makeRoom
  split_ifs
  · exact h
  · obtain ⟨u, hu, hv⟩ := h
    refine ⟨u, ?_, hv⟩
    simp [unexpired, Dict.get?_filter, hu, Option.filter, hnow.trans_le hv]

/-- A call made before `v` does not end or shorten a lockout that lasts until `v`. -/
theorem step {e : ℚ × Call κ} (h : LockedTo s c v) (he : e.1 < v)
    (hv : v ≤ e.1 + lockoutSeconds env) : LockedTo (AuthThrottle.step env s e).2 c v := by
  obtain ⟨now, call⟩ := e
  cases call with
  | recordFailure c' =>
    replace h : LockedTo (AuthThrottle.makeRoom env s now) c v := h.makeRoom he
    simp only [AuthThrottle.step, recordFailure]
    split_ifs
    · by_cases hc : c = c'
      · exact ⟨_, by simp [Dict.get?_set, hc], hv⟩
      · simpa [LockedTo, Dict.get?_set, hc] using h
    · exact h
  | recordSuccess c' => exact h
  | blockedSeconds c' =>
    simp only [AuthThrottle.step, blockedSeconds]
    split_ifs with hlocked
    · exact h
    · obtain ⟨u, hu, hvu⟩ := h
      have hc : c ≠ c' := by
        rintro rfl
        rw [hu, Option.getD_some] at hlocked
        exact hlocked (he.trans_le hvu)
      exact ⟨u, by simp [Dict.get?_erase, hc, hu], hvu⟩

theorem after {h : List (ℚ × Call κ)} (hs : LockedTo s c v)
    (hh : ∀ e ∈ h, e.1 < v ∧ v ≤ e.1 + lockoutSeconds env) :
    LockedTo (AuthThrottle.after env s h) c v := by
  induction h generalizing s with
  | nil => exact hs
  | cons e h ih =>
    obtain ⟨he, hh⟩ := List.forall_mem_cons.1 hh
    exact ih (hs.step he.1 he.2) hh

end LockedTo

/-! ## The lockout law -/

/-- **The lockout law, where the record of the client is kept.** Once the failures of `c` within
the window since its last success or lockout reach `AUTH_MAX_FAILURES`, every query within the
lockout period of the last of them finds `c` blocked, whatever calls come in between. -/
theorem blockedSeconds_pos_of_maxFailures (env : Environ) {c : κ} {h h' : List (ℚ × Call κ)}
    {t u : ℚ}
    (hclock : (h.map Prod.fst ++ t :: (h'.map Prod.fst ++ [u])).Pairwise (· ≤ ·))
    (hkeeps : KeepsAlong env c .init (h ++ [(t, .recordFailure c)]))
    (hmax : maxFailures env ≤
      (withinWindow env t (sinceReset env c .init [] h ++ [t])).length)
    (hu : u < t + lockoutSeconds env) :
    0 < (blockedSeconds (after env .init (h ++ (t, .recordFailure c) :: h')) u c).1 := by
  obtain ⟨hk, hkt⟩ := keepsAlong_append.1 hkeeps
  have hclock' : (h.map Prod.fst ++ [t]).Pairwise (· ≤ ·) :=
    hclock.sublist (List.Sublist.append_left (by simp) _)
  have htracks := (Tracks.after_init hclock' hk).makeRoom hkt.1
  have hlocked : LockedTo (step env (after env .init h) (t, .recordFailure c)).2 c
      (t + lockoutSeconds env) := by
    simp only [step, recordFailure]
    rw [if_pos (hmax.trans htracks.length_withinWindow_le)]
    exact ⟨_, by simp [Dict.get?_set], le_rfl⟩
  rw [after_append]
  refine LockedTo.blockedSeconds_pos (hlocked.after fun e he => ?_) hu
  -- the calls in between are made no earlier than the last failure and no later than the query
  have hlater := (List.pairwise_cons.1 (List.pairwise_append.1 hclock).2.1)
  have hte : t ≤ e.1 := hlater.1 _ (List.mem_append_left _ (List.mem_map_of_mem he))
  have heu : e.1 ≤ u :=
    (List.pairwise_append.1 hlater.2).2.2 _ (List.mem_map_of_mem he) u (by simp)
  exact ⟨heu.trans_lt hu, by linarith⟩

/-- Two wrong keys lock client 0 out although client 1 fails in between. -/
theorem blockedSeconds_pos_two_clients :
    0 < (blockedSeconds (after ⟨some 2, none, none⟩ .init
      [(0, .recordFailure 0), (1, .recordFailure 0), (2, .recordFailure 1)]) 3 0).1 :=
  @blockedSeconds_pos_of_maxFailures ℕ _ ⟨some 2, none, none⟩ 0 [(0, .recordFailure 0)]
    [(2, .recordFailure 1)] 1 3 (by norm_num)
    ⟨.inl (by decide), .inl (by decide), trivial⟩ (by decide +kernel) (by decide +kernel)

/-! ## A client whose record is evicted -/

/-- The wrong keys of the clients below `n`, one each, at clock reading 0. -/
def wave (n : ℕ) : List (ℚ × Call ℕ) := (List.range n).map fun i => (0, .recordFailure i)

/-- The failure table after `wave n`. -/
def waveTable (n : ℕ) : Dict ℕ (List ℚ) :=
  ⟨(List.range n).map fun i => (i, [0]), by
    simpa [Function.comp_def] using List.nodup_range⟩

theorem get?_waveTable (n : ℕ) : (waveTable n).get? n = none := by
  rw [Option.eq_none_iff_forall_ne_some]
  intro q hq
  rw [Dict.get?_eq_some_iff] at hq
  obtain ⟨i, hi, he⟩ := List.mem_map.1 hq
  exact (List.mem_range.1 hi).ne (Prod.mk.inj he).1

theorem step_wave {env : Environ} (henv : 2 ≤ maxFailures env) {n : ℕ}
    (hn : n < MAX_TRACKED_CLIENTS) :
    step env ⟨waveTable n, Dict.empty⟩ (0, .recordFailure n) =
      (0, ⟨waveTable (n + 1), Dict.empty⟩) := by
  have hroom : makeRoom env ⟨waveTable n, Dict.empty⟩ 0 = ⟨waveTable n, Dict.empty⟩ :=
    if_pos (by simpa [Dict.size, Dict.empty, waveTable] using hn)
  have hcounted : counted env ⟨waveTable n, Dict.empty⟩ 0 n = [0] := by
    simp [counted, get?_waveTable]
  have hset : (waveTable n).set n [0] = waveTable (n + 1) := by
    rw [Dict.ext_iff, Dict.items_set_of_none (get?_waveTable n)]
    simp [waveTable, List.range_succ]
  simp only [step, recordFailure, hroom, hcounted, hset]
  exact if_neg (not_le.2 henv)

theorem wave_succ (n : ℕ) : wave (n + 1) = wave n ++ [(0, .recordFailure n)] := by
  simp [wave, List.range_succ]

/-- Up to the table's capacity every client of the wave has its record. -/
theorem after_wave {env : Environ} (henv : 2 ≤ maxFailures env) {n : ℕ}
    (hn : n ≤ MAX_TRACKED_CLIENTS) : after env .init (wave n) = ⟨waveTable n, Dict.empty⟩ := by
  induction n with
  | zero => rfl
  | succ n ih =>
    rw [wave_succ, after_append, ih (by omega), after, step_wave henv (by omega), after]

theorem sinceReset_wave {env : Environ} (henv : 2 ≤ maxFailures env) {n : ℕ}
    (hn : n + 1 ≤ MAX_TRACKED_CLIENTS) : sinceReset env 0 .init [] (wave (n + 1)) = [0] := by
  induction n with
  | zero =>
    have h : (recordFailure env .init 0 0).1 = 0 := congrArg Prod.fst (step_wave henv hn)
    simp [wave, sinceReset, count, h]
  | succ n ih =>
    rw [wave_succ, sinceReset_append, ih (by omega)]
    simp [sinceReset, count]

/-- At capacity, the next failure evicts the record of the oldest client, even its own. -/
theorem makeRoom_waveTable (env : Environ) :
    (makeRoom env ⟨waveTable MAX_TRACKED_CLIENTS, Dict.empty⟩ 0).failures.get? 0 = none ∧
      (makeRoom env ⟨waveTable MAX_TRACKED_CLIENTS, Dict.empty⟩ 0).lockedUntil = Dict.empty := by
  obtain ⟨n, hn⟩ : ∃ n, MAX_TRACKED_CLIENTS = n + 1 := ⟨9999, rfl⟩
  have hfull : ¬ (waveTable (n + 1)).size + (Dict.empty : Dict ℕ ℚ).size < n + 1 := by
    simp [Dict.size, Dict.empty, waveTable]
  have hrecent : recent env (waveTable (n + 1)) 0 = waveTable (n + 1) := by
    rw [Dict.ext_iff]
    exact List.filter_eq_self.2 fun e he => by
      obtain ⟨i, -, rfl⟩ := List.mem_map.1 he
      simp
  rw [makeRoom, hn, if_neg hfull, hrecent]
  refine ⟨?_, rfl⟩
  rw [Option.eq_none_iff_forall_ne_some]
  intro q hq
  rw [Dict.get?_eq_some_iff] at hq
  simp only [Dict.popWhile, waveTable, List.range_succ_eq_map, List.map_cons, Dict.dropOldest,
    List.length_map, List.length_range] at hq
  rw [if_pos (by simp)] at hq
  obtain ⟨i, hi, he⟩ := List.mem_map.1 ((Dict.dropOldest_suffix _ _).subset hq)
  obtain ⟨j, -, rfl⟩ := List.mem_map.1 hi
  exact Nat.succ_ne_zero j (Prod.mk.inj he).1

/-- A failure that finds neither a record of the client nor a lockout locks nobody out. -/
theorem blockedSeconds_step_of_gone {env : Environ} (henv : 2 ≤ maxFailures env)
    {s : Throttle κ} {c : κ}
    (hgone : (makeRoom env s 0).failures.get? c = none ∧
      (makeRoom env s 0).lockedUntil = Dict.empty) :
    (blockedSeconds (step env s (0, .recordFailure c)).2 0 c).1 = 0 := by
  have hcounted : counted env (makeRoom env s 0) 0 c = [0] := by simp [counted, hgone.1]
  simp only [step, recordFailure, hcounted, List.length_singleton]
  rw [if_neg (not_le.2 henv)]
  simp [blockedSeconds, hgone.2]

/-- Client 0 fails, then 9999 other clients, then client 0 a second time: with two failures
allowed within the window it is not locked out. -/
theorem second_failure_not_locked :
    maxFailures ⟨some 2, none, none⟩ ≤ (withinWindow ⟨some 2, none, none⟩ 0
        (sinceReset ⟨some 2, none, none⟩ 0 .init [] (wave MAX_TRACKED_CLIENTS) ++ [0])).length ∧
      (blockedSeconds (after ⟨some 2, none, none⟩ .init
        (wave MAX_TRACKED_CLIENTS ++ [(0, .recordFailure 0)])) 0 0).1 = 0 := by
  have henv : 2 ≤ maxFailures ⟨some 2, none, none⟩ := by decide
  constructor
  · obtain ⟨n, hn⟩ : ∃ n, MAX_TRACKED_CLIENTS = n + 1 := ⟨9999, rfl⟩
    rw [hn, sinceReset_wave henv hn.ge]
    simp [withinWindow, maxFailures, intEnv]
  · rw [after_append, after_wave henv le_rfl, after, after]
    exact blockedSeconds_step_of_gone henv (makeRoom_waveTable _)

end RagLeap.AuthThrottle
