import Mathlib

/-!
# A lock that sessions hold

A server gives one exclusive lock to one of its sessions at a time and takes it back when the session
is over, and not before. Sessions are numbered in the order in which they were opened.

`Sessions.Holds s c` says that the session `c` has the lock until it is over; no operation of any
session changes it (`Holds.expire`, `Holds.openFor`, `Holds.tryLock`), and two sessions that both
have it are one while they are live (`Holds.eq_of_mem_live`).
-/

namespace RagLeap

/-- The sessions that were opened, with the client of each, those that are live, and the one that
holds the lock. -/
structure Sessions (κ : Type) where
  clients : List κ
  live : List ℕ
  holder : Option ℕ
  live_lt : ∀ c ∈ live, c < clients.length
  holder_live : ∀ c, holder = some c → c ∈ live

namespace Sessions

variable {κ : Type}

def empty : Sessions κ where
  clients := []
  live := []
  holder := none
  live_lt _ h := by cases h
  holder_live _ h := by cases h

/-- The sessions of `ended` are over. -/
def expire (ended : List ℕ) (s : Sessions κ) : Sessions κ where
  clients := s.clients
  live := s.live.filter fun c => c ∉ ended
  holder := s.holder.filter fun c => c ∉ ended
  live_lt c h := s.live_lt c (List.mem_filter.1 h).1
  holder_live c h := by
    obtain ⟨hholder, hc⟩ := Option.filter_eq_some_iff.1 h
    exact List.mem_filter.2 ⟨s.holder_live c hholder, hc⟩

/-- A session for `client`, whose number is that of the sessions before it. -/
def openFor (client : κ) (s : Sessions κ) : Sessions κ where
  clients := s.clients ++ [client]
  live := s.live ++ [s.clients.length]
  holder := s.holder
  live_lt c h := by
    rw [List.length_append, List.length_singleton]
    rcases List.mem_append.1 h with h | h
    · exact Nat.lt_succ_of_lt (s.live_lt c h)
    · rw [List.mem_singleton.1 h]
      exact Nat.lt_succ_self _
  holder_live c h := List.mem_append_left _ (s.holder_live c h)

/-- The session `c`, which is live, takes the lock if no other has it. -/
def lock (s : Sessions κ) (c : ℕ) (h : c ∈ s.live) : Sessions κ :=
  { s with
    holder := some (s.holder.getD c)
    holder_live := by
      intro d hd
      obtain rfl := Option.some.inj hd
      rcases hs : s.holder with _ | d
      · exact h
      · exact s.holder_live d hs }

/-- The answer to `c`, or `none` if the session is over. -/
def tryLock (c : ℕ) (s : Sessions κ) : Option (Bool × Sessions κ) :=
  if h : c ∈ s.live then some (decide (s.holder.getD c = c), s.lock c h) else none

/-- The session has the lock until it is over. -/
def Holds (s : Sessions κ) (c : ℕ) : Prop :=
  c < s.clients.length ∧ (c ∈ s.live → s.holder = some c)

variable {s s' : Sessions κ} {c d : ℕ}

@[simp] theorem clients_expire (ended : List ℕ) : (s.expire ended).clients = s.clients := rfl

@[simp] theorem clients_openFor (client : κ) : (s.openFor client).clients = s.clients ++ [client] := rfl

theorem holder_expire {ended : List ℕ} :
    (s.expire ended).holder = some c ↔ s.holder = some c ∧ c ∉ ended := by
  show s.holder.filter (fun c => c ∉ ended) = some c ↔ _
  rw [Option.filter_eq_some_iff, decide_eq_true_eq]

theorem mem_live_expire {ended : List ℕ} :
    c ∈ (s.expire ended).live ↔ c ∈ s.live ∧ c ∉ ended := by
  show c ∈ s.live.filter (fun c => c ∉ ended) ↔ _
  rw [List.mem_filter, decide_eq_true_eq]

@[simp] theorem expire_nil : s.expire [] = s := by
  obtain ⟨clients, live, holder, hlt, hlive⟩ := s
  cases holder with
  | none => simp [expire]
  | some c => simp [expire]

theorem getElem?_openFor {client k : κ} (h : s.clients[c]? = some k) :
    (s.openFor client).clients[c]? = some k := by
  rw [clients_openFor, List.getElem?_append_left (List.getElem?_eq_some_iff.1 h).1]
  exact h

theorem getElem?_openFor_self (client : κ) :
    (s.openFor client).clients[s.clients.length]? = some client :=
  List.getElem?_concat_length

/-- What `tryLock` does to the lock. -/
theorem tryLock_cases {b : Bool} (h : s.tryLock c = some (b, s')) :
    c ∈ s.live ∧ s'.clients = s.clients ∧ s'.live = s.live ∧ s'.holder = some (s.holder.getD c) ∧
      (b = true ↔ s'.holder = some c) := by
  unfold tryLock at h
  split_ifs at h with hc
  obtain ⟨rfl, rfl⟩ := Prod.ext_iff.1 (Option.some.inj h)
  refine ⟨hc, rfl, rfl, rfl, ?_⟩
  rw [decide_eq_true_eq]
  exact ⟨congrArg some, Option.some.inj⟩

theorem tryLock_of_mem (h : c ∈ s.live) :
    s.tryLock c = some (decide (s.holder.getD c = c), s.lock c h) := dif_pos h

theorem tryLock_eq_none (h : c ∉ s.live) : s.tryLock c = none := dif_neg h

namespace Holds

theorem expire (h : s.Holds c) (ended : List ℕ) : (s.expire ended).Holds c := by
  refine ⟨h.1, fun hc => ?_⟩
  obtain ⟨hlive, hended⟩ := mem_live_expire.1 hc
  exact holder_expire.2 ⟨h.2 hlive, hended⟩

theorem openFor (h : s.Holds c) (client : κ) : (s.openFor client).Holds c := by
  refine ⟨?_, fun hc => ?_⟩
  · rw [clients_openFor, List.length_append]
    exact Nat.lt_add_right _ h.1
  · rcases List.mem_append.1 hc with hc | hc
    · exact h.2 hc
    · exact absurd (List.mem_singleton.1 hc) (Nat.ne_of_lt h.1)

theorem tryLock {b : Bool} (h : s.Holds c) (hd : s.tryLock d = some (b, s')) : s'.Holds c := by
  obtain ⟨-, hclients, hlive, hholder, -⟩ := tryLock_cases hd
  refine ⟨hclients ▸ h.1, fun hc => ?_⟩
  rw [hlive] at hc
  rw [hholder, h.2 hc]
  rfl

/-- A session to which the lock is given. -/
theorem of_tryLock (h : s.tryLock c = some (true, s')) : s'.Holds c := by
  obtain ⟨hc, hclients, -, -, hholder⟩ := tryLock_cases h
  exact ⟨hclients ▸ s.live_lt c hc, fun _ => hholder.1 rfl⟩

theorem eq_of_mem_live (h : s.Holds c) (h' : s.Holds d) (hc : c ∈ s.live) (hd : d ∈ s.live) :
    c = d :=
  Option.some.inj ((h.2 hc).symm.trans (h'.2 hd))

end Holds

end Sessions

end RagLeap
