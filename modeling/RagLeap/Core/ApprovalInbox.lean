import RagLeap.Core.Approval
import RagLeap.Foundations.Decimal

/-!
# The approval inbox

`resolve_pending` answers a pending action from the inbox: it looks the id up among the newest
200 rows and hands the answer on as a chat reply, which reads the row itself. `InboxAgrees` says
that the two come to the same, and `inboxAgrees_iff` that they do for a row with fewer than 200
newer ones.
-/

namespace RagLeap.Core

/-! ## Ids in messages -/

theorem toNat_of_isIdChar {c : Char} (h : IsIdChar c = true) :
    (65 ≤ c.toNat ∧ c.toNat ≤ 90) ∨ (48 ≤ c.toNat ∧ c.toNat ≤ 57) := by
  simpa [IsIdChar, Char.le_def, UInt32.le_iff_toNat_le] using h

theorem isSpace_of_isIdChar {c : Char} (h : IsIdChar c = true) : Str.isSpace c = false := by
  have hc := toNat_of_isIdChar h
  simp only [Str.isSpace, Bool.or_eq_false_iff, Bool.and_eq_false_iff, decide_eq_false_iff_not,
    beq_eq_false_iff_ne]
  omega

theorem toUpper_of_isIdChar {c : Char} (h : IsIdChar c = true) : c.toUpper = c := by
  have hc := toNat_of_isIdChar h
  unfold Char.toUpper
  split
  · rename_i hlower
    simp only [UInt32.le_iff_toNat_le] at hlower
    simp at hlower
    omega
  · rfl

theorem strip_eq_self {s : Str} (hhead : ∀ c ∈ s.head?, Str.isSpace c = false)
    (hlast : ∀ c ∈ s.getLast?, Str.isSpace c = false) : Str.strip s = s := by
  have hdrop : ∀ t : Str, (∀ c ∈ t.head?, Str.isSpace c = false) →
      t.dropWhile Str.isSpace = t := by
    intro t ht
    cases t with
    | nil => rfl
    | cons c t => rw [List.dropWhile_cons_of_neg (by simp [ht c rfl])]
  unfold Str.strip
  rw [hdrop s hhead, hdrop s.reverse (by rwa [List.head?_reverse]), List.reverse_reverse]

section

variable {id : Str} (hlen : id.length = 8) (hid : id.all IsIdChar = true)

include hlen hid

theorem exists_isIdChar_last : ∃ init c, id = init ++ [c] ∧ IsIdChar c = true := by
  have hne : id ≠ [] := by
    rintro rfl
    cases hlen
  exact ⟨id.dropLast, id.getLast hne, (List.dropLast_append_getLast hne).symm,
    List.all_eq_true.1 hid _ (List.getLast_mem hne)⟩

/-- A word before an id: neither stripping nor upper case changes it. -/
theorem upper_strip (env : Env) (word : Str) (hword : IsAscii word)
    (hupper : word.map Char.toUpper = word) (hhead : ∀ c ∈ (word ++ id).head?,
      Str.isSpace c = false) :
    env.unicode.upper (Str.strip (word ++ id)) = word ++ id := by
  obtain ⟨init, c, heq, hc⟩ := exists_isIdChar_last hlen hid
  have hlast : ∀ d ∈ (word ++ id).getLast?, Str.isSpace d = false := by
    intro d hd
    rw [heq, ← List.append_assoc, List.getLast?_append] at hd
    cases hd
    exact isSpace_of_isIdChar hc
  have hascii : IsAscii (word ++ id) := by
    intro d hd
    rcases List.mem_append.1 hd with hd | hd
    · exact hword d hd
    · have := toNat_of_isIdChar (List.all_eq_true.1 hid d hd)
      omega
  have hidupper : id.map Char.toUpper = id := by
    conv_rhs => rw [← List.map_id id]
    exact List.map_congr_left fun d hd => toUpper_of_isIdChar (List.all_eq_true.1 hid d hd)
  rw [strip_eq_self hhead hlast, env.unicode.upper_ascii _ hascii, List.map_append, hupper,
    hidupper]

/-- The message `resolve_pending` writes is read as the answer it is for. -/
theorem approvalOf_answer (env : Env) (approve : Bool) :
    approvalOf env ((if approve then "YES ".toList else "NO ".toList) ++ id) =
      some (approve, id) := by
  obtain ⟨c, rest, heq, hc⟩ : ∃ c rest, id = c :: rest ∧ IsIdChar c = true := by
    cases id with
    | nil => cases hlen
    | cons c rest => exact ⟨c, rest, rfl, List.all_eq_true.1 hid c List.mem_cons_self⟩
  have hdrop : (' ' :: id).dropWhile Str.isSpace = id := by
    rw [List.dropWhile_cons_of_pos (by decide), heq,
      List.dropWhile_cons_of_neg (by simp [isSpace_of_isIdChar hc])]
  have htake : (' ' :: id).takeWhile Str.isSpace ≠ [] := by
    rw [List.takeWhile_cons_of_pos (by decide)]
    exact List.cons_ne_nil _ _
  unfold approvalOf
  cases approve with
  | true =>
    rw [if_pos rfl, upper_strip hlen hid env _ (by decide) (by decide)
      (by intro d hd; cases hd; decide)]
    have hyes : "YES".toList <+: "YES ".toList ++ id := ⟨' ' :: id, rfl⟩
    unfold parseApproval
    rw [if_pos hyes, show ("YES ".toList ++ id).drop 3 = ' ' :: id from rfl]
    simp only [hdrop]
    rw [if_pos ⟨htake, hlen, hid⟩]
    rfl
  | false =>
    rw [if_neg Bool.false_ne_true, upper_strip hlen hid env _ (by decide) (by decide)
      (by intro d hd; cases hd; decide)]
    have hyes : ¬ "YES".toList <+: "NO ".toList ++ id := fun h =>
      absurd (List.cons_prefix_cons.1 h).1 (by decide)
    have hno : "NO".toList <+: "NO ".toList ++ id := ⟨' ' :: id, rfl⟩
    unfold parseApproval
    rw [if_neg hyes, if_pos hno, show ("NO ".toList ++ id).drop 2 = ' ' :: id from rfl]
    simp only [hdrop]
    rw [if_pos ⟨htake, hlen, hid⟩]
    rfl

end

/-- The id of an answer is of the form of an id. -/
theorem isId_of_approvalOf {env : Env} {message id : Str} {approve : Bool}
    (h : approvalOf env message = some (approve, id)) : id.length = 8 ∧ id.all IsIdChar = true := by
  have hanswer : ∀ {rest : Str} {b : Bool},
      (if rest.takeWhile Str.isSpace ≠ [] ∧ (rest.dropWhile Str.isSpace).length = 8 ∧
          (rest.dropWhile Str.isSpace).all IsIdChar = true then some (rest.dropWhile Str.isSpace)
        else none).map (b, ·) = some (approve, id) → id.length = 8 ∧ id.all IsIdChar = true := by
    intro rest b h
    split_ifs at h with hid
    · cases h
      exact hid.2
    · cases h
  unfold approvalOf parseApproval at h
  split_ifs at h
  · exact hanswer h
  · exact hanswer h

/-! ## The listing -/

/-- The rows created after the one of `actionId`, newest first. -/
def Store.newerThan (s : Store) (actionId : Str) : List (Str × Action) :=
  s.pending.items.reverse.takeWhile fun e => e.1 ≠ actionId

theorem any_take_iff {α : Type} {l : List α} {p : α → Bool} (n : ℕ) (h : l.any p = true) :
    (l.take n).any p = true ↔ (l.takeWhile fun a => ! p a).length < n := by
  induction l generalizing n with
  | nil => cases h
  | cons a l ih =>
    cases n with
    | zero => simp
    | succ n =>
      rw [List.take_succ_cons, List.any_cons]
      cases hp : p a with
      | true => simp [hp]
      | false =>
        rw [List.any_cons, hp, Bool.false_or] at h
        rw [Bool.false_or, ih n h, List.takeWhile_cons_of_pos (by simp [hp]), List.length_cons]
        omega

theorem listed_iff {s : Store} {actionId : Str} {a : Action}
    (hs : s.pending.get? actionId = some a) :
    ((s.pending.items.reverse.take 200).any (·.1 = actionId)) = true ↔
      (s.newerThan actionId).length < 200 := by
  have hany : (s.pending.items.reverse.any (·.1 = actionId)) = true := by
    rw [List.any_reverse, List.any_eq_true]
    exact ⟨_, Dict.get?_eq_some_iff.1 hs, decide_eq_true rfl⟩
  rw [any_take_iff 200 hany, Store.newerThan]
  simp only [decide_not]

/-! ## The inbox against the chat -/

/-- Once the listing went through, an answer from the inbox has the runs of the same answer by
chat: the same statements, the same result and the same tables afterwards. -/
def InboxAgrees (env : Env) (s : Store) (actionId message : Str) (approve : Bool) : Prop :=
  ∀ es reply s', (∃ w, w.fault = .none ∧
      store.Runs (resolvePending env actionId approve).run s ((.listPending 200, w) :: es)
        reply s') ↔
    store.Runs (processApprovalResponse env message).run s es reply s'

theorem processApprovalResponse_congr {env : Env} {message message' : Str}
    (h : approvalOf env message = approvalOf env message') :
    processApprovalResponse env message = processApprovalResponse env message' := by
  unfold processApprovalResponse
  rw [h]

/-- A run from the inbox whose listing went through. -/
theorem resolvePending_runs {env : Env} {s s' : Store} {actionId : Str} {approve : Bool}
    {w : Choice} {es : List (Stmt × Choice)} {reply : Option (Option ApprovalReply)}
    (hid : actionId.length = 8 ∧ actionId.all IsIdChar = true) (hw : w.fault = .none) :
    store.Runs (resolvePending env actionId approve).run s ((.listPending 200, w) :: es)
        reply s' ↔
      if (s.pending.items.reverse.take 200).any (·.1 = actionId) then
        store.Runs (processApprovalResponse env
          ((if approve then "YES ".toList else "NO ".toList) ++ actionId)).run s es reply s'
      else es = [] ∧ reply = some none ∧ s' = s := by
  have hhead : ∀ c ∈ ([] ++ actionId).head?, Str.isSpace c = false := fun c hc =>
    isSpace_of_isIdChar (List.all_eq_true.1 hid.2 c (List.mem_of_head? hc))
  have hupper : env.unicode.upper (Str.strip actionId) = actionId :=
    upper_strip hid.1 hid.2 env [] (by decide) rfl hhead
  have hlisting : act (.listPending 200) w s =
      some (some (s.pending.items.reverse.take 200), s) := by
    simp only [act, hw]
    rfl
  let message := (if approve then "YES ".toList else "NO ".toList) ++ actionId
  let found := (s.pending.items.reverse.take 200).any (·.1 = actionId)
  have hrest : store.Runs (resolvePending env actionId approve).run s
      ((.listPending 200, w) :: es) reply s' ↔
      store.Runs (if ¬ found then pure none else processApprovalResponse env message :
        Proc Statements (Option ApprovalReply)).run s es reply s' := by
    unfold resolvePending
    simp only [hupper]
    rw [if_pos hid]
    constructor
    · intro h
      obtain ⟨w', ans, s₁, es', hact, h, he⟩ := Machine.runs_op_iff.1 h
      cases he
      rw [show store.act (.listPending 200) w s = _ from hlisting] at hact
      cases hact
      exact h
    · intro h
      exact Machine.runs_op_iff.2 ⟨w, _, s, es, hlisting, h, rfl⟩
  by_cases hfound : found = true
  · rw [hrest, if_neg (not_not.2 hfound), if_pos hfound]
  · rw [hrest, if_pos hfound, if_neg hfound]
    exact Machine.runs_ret_iff

/-- An answer by chat never comes to what the inbox says of an id it does not find. -/
theorem processApprovalResponse_ne_none {env : Env} {message actionId : Str} {approve : Bool}
    (hm : approvalOf env message = some (approve, actionId)) {s s' : Store}
    {es : List (Stmt × Choice)} {reply : Option (Option ApprovalReply)}
    (h : store.Runs (processApprovalResponse env message).run s es reply s') :
    reply ≠ some none := by
  unfold processApprovalResponse at h
  rw [hm] at h
  obtain ⟨es₁, es₂, answer, s₁, -, -, h⟩ := Machine.runs_bind_iff.1 h
  rintro rfl
  cases answer <;> cases h

/-- The inbox agrees exactly if the listing has the action. -/
theorem inboxAgrees_iff_listed {env : Env} {s : Store} {actionId message : Str} {approve : Bool}
    (hm : approvalOf env message = some (approve, actionId)) :
    InboxAgrees env s actionId message approve ↔
      (s.pending.items.reverse.take 200).any (·.1 = actionId) = true := by
  have hid := isId_of_approvalOf hm
  have hcongr := processApprovalResponse_congr
    ((approvalOf_answer hid.1 hid.2 env approve).trans hm.symm)
  have hcalm : (⟨.none, [], calmReply .off⟩ : Choice).fault = .none := rfl
  constructor
  · intro hagrees
    by_contra hany
    have hrun : store.Runs (resolvePending env actionId approve).run s
        [(.listPending 200, ⟨.none, [], calmReply .off⟩)] (some none) s :=
      (resolvePending_runs hid hcalm).2 (by rw [if_neg hany]; exact ⟨rfl, rfl, rfl⟩)
    exact processApprovalResponse_ne_none hm ((hagrees _ _ _).1 ⟨_, hcalm, hrun⟩) rfl
  · intro hany es reply s'
    constructor
    · rintro ⟨w, hw, h⟩
      have hchat := (resolvePending_runs hid hw).1 h
      rwa [if_pos hany, hcongr] at hchat
    · intro h
      refine ⟨_, hcalm, (resolvePending_runs hid hcalm).2 ?_⟩
      rwa [if_pos hany, hcongr]

/-- **When the inbox agrees with the chat.** For an action in the table, and a message that is read
as the answer to it, the inbox comes to what the chat comes to exactly if fewer than 200 of the
pending actions are newer. -/
theorem inboxAgrees_iff (env : Env) {s : Store} {actionId message : Str} {approve : Bool}
    {a : Action} (hs : s.pending.get? actionId = some a)
    (hm : approvalOf env message = some (approve, actionId)) :
    InboxAgrees env s actionId message approve ↔ (s.newerThan actionId).length < 200 :=
  (inboxAgrees_iff_listed hm).trans (listed_iff hs)

/-- One pending action. -/
def oneRow : Store := ⟨Dict.empty.set "0123ABCD".toList advisorMessage.toAction, Dict.empty, []⟩

theorem inboxAgrees_one :
    InboxAgrees Env.plain oneRow "0123ABCD".toList "yes 0123abcd".toList true :=
  (inboxAgrees_iff Env.plain (a := advisorMessage.toAction) rfl (by decide)).2
    (by decide)

/-- Every other row is newer than the oldest one. -/
theorem length_newerThan_oldest {s : Store} {e : Str × Action} {rest : List (Str × Action)}
    (h : s.pending.items = e :: rest) : (s.newerThan e.1).length = rest.length := by
  have hn := s.pending.nodup
  rw [h, List.map_cons, List.nodup_cons] at hn
  have hne : ∀ x ∈ rest.reverse, decide (x.1 ≠ e.1) = true := by
    intro x hx
    refine decide_eq_true fun he => hn.1 ?_
    rw [← he]
    exact List.mem_map_of_mem (List.mem_reverse.1 hx)
  rw [Store.newerThan, h, List.reverse_cons, List.takeWhile_append_of_pos hne]
  simp

/-- A table of 201 pending actions, with eight digits for ids. -/
def fullTable : Store where
  pending :=
    ⟨(List.range 201).map fun i => (Str.ofNat (10000000 + i), advisorMessage.toAction), by
      rw [List.map_map]
      refine List.Nodup.map (fun m n h => ?_) List.nodup_range
      have := Str.ofNat_injective h
      omega⟩
  runs := Dict.empty
  journal := []

/-- The oldest of 201 pending actions is not found from the inbox. -/
theorem oldest_not_in_inbox :
    ∃ a, fullTable.pending.get? "10000000".toList = some a ∧
      ¬ InboxAgrees Env.plain fullTable "10000000".toList "YES 10000000".toList true := by
  have hitems : ∃ rest, fullTable.pending.items =
      ("10000000".toList, advisorMessage.toAction) :: rest ∧ rest.length = 200 := by
    refine ⟨(List.range 200).map fun i =>
      (Str.ofNat (10000000 + (i + 1)), advisorMessage.toAction), ?_, by simp⟩
    have hrange : List.range 201 = 0 :: (List.range 200).map Nat.succ := List.range_succ_eq_map
    refine (congrArg (List.map fun i =>
      (Str.ofNat (10000000 + i), advisorMessage.toAction)) hrange).trans ?_
    rw [List.map_cons, List.map_map]
    rfl
  obtain ⟨rest, hitems, hlen⟩ := hitems
  have hrow : fullTable.pending.get? "10000000".toList = some advisorMessage.toAction :=
    Dict.get?_eq_some_iff.2 (hitems ▸ List.mem_cons_self)
  refine ⟨_, hrow, fun hagrees => ?_⟩
  rw [inboxAgrees_iff_listed (by decide), listed_iff hrow,
    length_newerThan_oldest hitems] at hagrees
  omega

end RagLeap.Core
