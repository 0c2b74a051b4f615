import RagLeap.Foundations.Binary64
import RagLeap.Foundations.CommonBlocks
import RagLeap.Foundations.PyString

/-!
# The similarity of two names, in the port

`SequenceMatch.java`: `matches` counts the characters in the longest common block of two strings,
and in those to its left and to its right, as `difflib` does; `ratio` divides twice the number by
the length of both. In a second string of 200 or more characters those that are very frequent are
left out when blocks are looked for, and a block is extended over them afterwards.

The count is that of a common subsequence (`matches_blocks`), and all of a string compared with
itself (`matches_self`): there the best block stands on the diagonal, so extending it gives the
whole string. The sum of the lengths is an `int`, and where it does not fit into one the ratio is
negative (`sound_iff`).
-/

namespace RagLeap.Graph.SequenceMatch

variable {α : Type} [DecidableEq α]

/-! ## The positions of a character -/

def positions (b : List α) (c : α) : List ℕ :=
  (List.range b.length).filter fun j => decide (b[j]? = some c)

/-- A character that is left out. -/
def IsPopular (b : List α) (c : α) : Prop :=
  200 ≤ b.length ∧ b.length / 100 + 1 < (positions b c).length

instance (b : List α) (c : α) : Decidable (IsPopular b c) := inferInstanceAs (Decidable (_ ∧ _))

/-- `b2j.get(c)`. -/
def b2j (b : List α) (c : α) : Option (List ℕ) :=
  if positions b c = [] ∨ IsPopular b c then none else some (positions b c)

/-! ## The longest block -/

/-- `j2len.getOrDefault(j - 1, 0)`, for a map that is 0 where it has no key. -/
def before (j2len : ℕ → ℕ) : ℕ → ℕ
  | 0 => 0
  | j + 1 => j2len j

/-- The loop over the positions in `b` of the character at `i` in `a`. -/
def scanRow (j2len : ℕ → ℕ) (blo bhi i : ℕ) : List ℕ → (ℕ → ℕ) → Block → (ℕ → ℕ) × Block
  | [], newj2len, best => (newj2len, best)
  | j :: js, newj2len, best =>
    if j < blo then scanRow j2len blo bhi i js newj2len best
    else if bhi ≤ j then (newj2len, best)
    else
      let k := before j2len j + 1
      scanRow j2len blo bhi i js (Function.update newj2len j k)
        (if best.size < k then ⟨i + 1 - k, j + 1 - k, k⟩ else best)

/-- The loop over `a`, from `i` on. -/
def scan (a b : List α) (blo bhi : ℕ) : ℕ → ℕ → (ℕ → ℕ) → Block → Block
  | 0, _, _, best => best
  | n + 1, i, j2len, best =>
    match a[i]?.bind (b2j b) with
    | some js =>
      let row := scanRow j2len blo bhi i js (fun _ => 0) best
      scan a b blo bhi n (i + 1) row.1 row.2
    | none => scan a b blo bhi n (i + 1) (fun _ => 0) best

def extendLeft (a b : List α) (alo blo : ℕ) : ℕ → ℕ → ℕ → Block
  | i + 1, j + 1, size =>
    if alo < i + 1 ∧ blo < j + 1 ∧ a[i]? = b[j]? then extendLeft a b alo blo i j (size + 1)
    else ⟨i + 1, j + 1, size⟩
  | i, j, size => ⟨i, j, size⟩

/-- The first argument is the number of characters left in `a`. -/
def extendRight (a b : List α) (bhi : ℕ) : ℕ → Block → Block
  | 0, m => m
  | n + 1, m =>
    if m.j + m.size < bhi ∧ a[m.i + m.size]? = b[m.j + m.size]? then
      extendRight a b bhi n { m with size := m.size + 1 }
    else m

/-- `longest`. -/
def longest (a b : List α) (r : Region) : Block :=
  let best := scan a b r.blo r.bhi (r.ahi - r.alo) r.alo (fun _ => 0) ⟨r.alo, r.blo, 0⟩
  let left := extendLeft a b r.alo r.blo best.i best.j best.size
  extendRight a b r.bhi (r.ahi - (left.i + left.size)) left

/-! ## The queue -/

/-- What is put into the queue after a block, the last first. -/
def rest (r : Region) (m : Block) : List Region :=
  (if m.i + m.size < r.ahi ∧ m.j + m.size < r.bhi then
      [⟨m.i + m.size, r.ahi, m.j + m.size, r.bhi⟩] else []) ++
    if r.alo < m.i ∧ r.blo < m.j then [⟨r.alo, m.i, r.blo, m.j⟩] else []

/-- The loop over the queue, its last element first; none where the rounds do not suffice. -/
def loop (a b : List α) : ℕ → List Region → ℕ → Option ℕ
  | _, [], total => some total
  | 0, _ :: _, _ => none
  | rounds + 1, r :: queue, total =>
    let m := longest a b r
    if 0 < m.size then loop a b rounds (rest r m ++ queue) (total + m.size)
    else loop a b rounds queue total

/-- `matches`. -/
def matchCount (a b : List α) (rounds : ℕ) : Option ℕ := loop a b rounds [.whole a b] 0

/-! ## The ratio -/

/-- The code points of a string: an array has less than 2³¹ elements. -/
def CodePoints : Type := { l : List CodePoint // l.length < 2 ^ 31 }

/-- The sum of the lengths, as an `int`. -/
def lengths (a b : CodePoints) : ℤ := (a.1.length + b.1.length : ℤ).bmod (2 ^ 32)

/-- `ratio`, a binary64 number. -/
def ratio (a b : CodePoints) (rounds : ℕ) : Option ℚ :=
  let length := lengths a b
  if length = 0 then some 1
  else
    (matchCount a.1 b.1 rounds).map fun (total : ℕ) =>
      Binary64.fl (Binary64.fl (2 * total) / length)

/-! ## The longest block is common to both strings -/

section Common

variable {a b : List α} {r : Region}

theorem getElem?_of_mem_positions {c : α} {j : ℕ} (h : j ∈ positions b c) : b[j]? = some c :=
  of_decide_eq_true (List.mem_filter.1 h).2

/-- A row of the scan has the positions of the character at `i`. -/
theorem of_row {i : ℕ} {js : List ℕ} (h : a[i]?.bind (b2j b) = some js) :
    ∃ c, a[i]? = some c ∧ js = positions b c ∧ js ≠ [] ∧ ¬ IsPopular b c := by
  obtain ⟨c, hc, hjs⟩ := Option.bind_eq_some_iff.1 h
  rw [b2j] at hjs
  split at hjs
  · exact nomatch hjs
  · rename_i hnot
    obtain rfl := Option.some.inj hjs
    exact ⟨c, hc, rfl, fun hnil => hnot (.inl hnil), fun hpop => hnot (.inr hpop)⟩

omit [DecidableEq α] in
theorem tail_before {alo blo i j : ℕ} {j2len : ℕ → ℕ} (h : CommonTails a b alo blo i j2len)
    (hi : alo ≤ i) (hj : blo ≤ j) : CommonTail a b alo blo i j (before j2len j) := by
  cases j with
  | zero => exact commonTail_zero hi hj
  | succ j => exact h j hj

omit [DecidableEq α] in
theorem scanRow_common {i : ℕ} (halo : r.alo ≤ i) (hahi : i < r.ahi) {j2len : ℕ → ℕ}
    (hj2len : CommonTails a b r.alo r.blo i j2len) {js : List ℕ} (hjs : ∀ j ∈ js, a[i]? = b[j]?)
    {newj2len : ℕ → ℕ} (hnew : CommonTails a b r.alo r.blo (i + 1) newj2len) {best : Block}
    (hbest : best.CommonIn a b r) :
    let row := scanRow j2len r.blo r.bhi i js newj2len best
    CommonTails a b r.alo r.blo (i + 1) row.1 ∧ row.2.CommonIn a b r := by
  induction js generalizing newj2len best with
  | nil => exact ⟨hnew, hbest⟩
  | cons j js ih =>
    have hrest := fun j' hj' => hjs j' (List.mem_cons_of_mem j hj')
    rw [scanRow]
    split
    · exact ih hrest hnew hbest
    split
    · exact ⟨hnew, hbest⟩
    rename_i hblo hbhi
    rw [Nat.not_lt] at hblo
    rw [Nat.not_le] at hbhi
    have htail := (tail_before hj2len halo hblo).succ (hjs j List.mem_cons_self)
    refine ih hrest (fun j' hj' => ?_) ?_
    · by_cases heq : j' = j
      · rw [heq, Function.update_self]
        exact htail
      · rw [Function.update_of_ne heq]
        exact hnew j' hj'
    · split
      · exact htail.mono le_rfl hahi le_rfl hbhi
      · exact hbest

theorem scan_common {n i : ℕ} (halo : r.alo ≤ i) (hahi : i + n = r.ahi) {j2len : ℕ → ℕ}
    (hj2len : CommonTails a b r.alo r.blo i j2len) {best : Block} (hbest : best.CommonIn a b r) :
    (scan a b r.blo r.bhi n i j2len best).CommonIn a b r := by
  induction n generalizing i j2len best with
  | zero => exact hbest
  | succ n ih =>
    rw [scan]
    split
    · rename_i js hrow
      obtain ⟨c, hc, rfl, -, -⟩ := of_row hrow
      have hjs : ∀ j ∈ positions b c, a[i]? = b[j]? := fun j hj =>
        hc.trans (getElem?_of_mem_positions hj).symm
      obtain ⟨htails, hcommon⟩ := scanRow_common halo (by omega) hj2len hjs
        (commonTails_zero (Nat.le_succ_of_le halo)) hbest
      exact ih (by omega) (by omega) htails hcommon
    · exact ih (by omega) (by omega) (commonTails_zero (by omega)) hbest

theorem extendLeft_common {i j size : ℕ} (h : (Block.mk i j size).CommonIn a b r) :
    (extendLeft a b r.alo r.blo i j size).CommonIn a b r := by
  induction i generalizing j size with
  | zero =>
    rw [extendLeft]
    · exact h
    · exact fun _ _ hi => nomatch hi
  | succ i ih =>
    cases j with
    | zero =>
      rw [extendLeft]
      · exact h
      · exact fun _ _ _ hj => nomatch hj
    | succ j =>
      rw [extendLeft]
      split
      · rename_i hmore
        have hi := h.i_le
        have hj := h.j_le
        dsimp only at hi hj
        refine ih ⟨by dsimp only; omega, by dsimp only; omega, by dsimp only; omega,
          by dsimp only; omega, fun d hd => ?_⟩
        cases d with
        | zero => exact hmore.2.2
        | succ d =>
          have hsame := h.same d (Nat.lt_of_succ_lt_succ hd)
          rwa [Nat.add_right_comm, Nat.add_right_comm j] at hsame
      · exact h

theorem extendRight_common {n : ℕ} {m : Block} (h : m.CommonIn a b r)
    (hn : m.i + m.size + n ≤ r.ahi) : (extendRight a b r.bhi n m).CommonIn a b r := by
  induction n generalizing m with
  | zero => exact h
  | succ n ih =>
    rw [extendRight]
    split
    · rename_i hmore
      refine ih ⟨h.le_i, by dsimp only; omega, h.le_j, by dsimp only; omega, fun d hd => ?_⟩
        (by dsimp only; omega)
      rcases Nat.lt_succ_iff_lt_or_eq.1 hd with hlt | rfl
      · exact h.same d hlt
      · exact hmore.2
    · exact h

theorem longest_common (ha : r.alo ≤ r.ahi) (hb : r.blo ≤ r.bhi) :
    (longest a b r).CommonIn a b r := by
  have hscan : (scan a b r.blo r.bhi (r.ahi - r.alo) r.alo (fun _ => 0)
      ⟨r.alo, r.blo, 0⟩).CommonIn a b r :=
    scan_common le_rfl (Nat.add_sub_cancel' ha) (commonTails_zero le_rfl)
      ⟨le_rfl, ha, le_rfl, hb, fun _ hd => absurd hd (Nat.not_lt_zero _)⟩
  have hleft := extendLeft_common hscan
  refine extendRight_common hleft ?_
  rw [Nat.add_sub_cancel' hleft.i_le]

end Common

/-! ## The queue is worked off -/

section Queue

variable {a b : List α}

/-- What the queue holds after a region that is worked off: its blocks are counted. -/
def WorkedOff (a b : List α) (bound : ℕ) (regions : List Region) (l : List Block) : Prop :=
  ∃ rounds ≤ bound, ∀ n queue total,
    loop a b (n + rounds) (regions ++ queue) total = loop a b n queue (total + Blocks.total l)

/-- A region that is put into the queue under a condition. -/
theorem workedOff_ite (c : Prop) [Decidable c] {bound : ℕ} {r : Region}
    (h : ∃ l, Blocks a b r l ∧ WorkedOff a b bound [r] l) :
    ∃ l, Blocks a b r l ∧ WorkedOff a b bound (if c then [r] else []) l := by
  by_cases hc : c
  · rw [if_pos hc]
    exact h
  · rw [if_neg hc]
    exact ⟨[], trivial, 0, Nat.zero_le _, fun n queue total => rfl⟩

/-- **Every region is worked off** after at most `2 w + 1` rounds, `w` its width in `a`, and what is
counted is the blocks of a common subsequence. -/
theorem exists_workedOff (w : ℕ) {r : Region} (hw : r.ahi = r.alo + w) (hb : r.blo ≤ r.bhi) :
    ∃ l, Blocks a b r l ∧ WorkedOff a b (2 * w + 1) [r] l := by
  induction w using Nat.strong_induction_on generalizing r with
  | _ w ih =>
    have hm : (longest a b r).CommonIn a b r := longest_common (by omega) hb
    set m := longest a b r with hdef
    have hlei := hm.le_i
    have hile := hm.i_le
    have hlej := hm.le_j
    have hjle := hm.j_le
    by_cases hsize : 0 < m.size
    · have hbefore := @ih (m.i - r.alo) (by omega) ⟨r.alo, m.i, r.blo, m.j⟩
        (Nat.add_sub_cancel' hlei).symm hlej
      have hafter := @ih (r.ahi - (m.i + m.size)) (by omega)
        ⟨m.i + m.size, r.ahi, m.j + m.size, r.bhi⟩ (Nat.add_sub_cancel' hile).symm hjle
      obtain ⟨l, hl, u, hu, hleft⟩ := workedOff_ite (r.alo < m.i ∧ r.blo < m.j) hbefore
      obtain ⟨l', hl', u', hu', hright⟩ :=
        workedOff_ite (m.i + m.size < r.ahi ∧ m.j + m.size < r.bhi) hafter
      refine ⟨l ++ m :: l', Blocks.append hm hl hl', u + u' + 1, by omega, fun n queue total => ?_⟩
      rw [← Nat.add_assoc, ← Nat.add_assoc, List.singleton_append, loop]
      simp only [← hdef]
      rw [if_pos hsize, rest, List.append_assoc, hright, hleft, Blocks.total_append,
        Blocks.total_cons]
      congr 1
      omega
    · refine ⟨[], trivial, 1, by omega, fun n queue total => ?_⟩
      rw [List.singleton_append, loop]
      simp only [← hdef]
      rw [if_neg hsize]
      rfl

/-- **The matched characters are the blocks of a common subsequence**, and the loop ends. -/
theorem matches_blocks (a b : List α) :
    ∃ l, Blocks a b (.whole a b) l ∧
      ∀ rounds, 2 * a.length + 1 ≤ rounds → matchCount a b rounds = some (Blocks.total l) := by
  obtain ⟨l, hl, u, hu, hloop⟩ :=
    @exists_workedOff α _ a b a.length (.whole a b) (Nat.zero_add _).symm (Nat.zero_le _)
  refine ⟨l, hl, fun rounds hrounds => ?_⟩
  obtain ⟨n, rfl⟩ := Nat.exists_eq_add_of_le' (hu.trans hrounds)
  have hend := hloop n [] 0
  rw [List.append_nil, loop, Nat.zero_add] at hend
  exact hend

example : matchCount "private".toList "privates".toList 20 = some 7 := by decide

/-- The loop only adds to what is counted. -/
theorem le_of_loop {rounds total total' : ℕ} {queue : List Region}
    (h : loop a b rounds queue total = some total') : total ≤ total' := by
  induction rounds generalizing queue total with
  | zero =>
    cases queue with
    | nil => exact (Option.some.inj h).le
    | cons r queue => exact nomatch h
  | succ rounds ih =>
    cases queue with
    | nil =>
      rw [loop] at h
      exact (Option.some.inj h).le
    | cons r queue =>
      rw [loop] at h
      split at h
      · exact (Nat.le_add_right _ _).trans (ih h)
      · exact ih h

end Queue

/-! ## A string compared with itself -/

section Diagonal

variable {b : List α} {i : ℕ}

/-- How many characters before `i` stand in a row that are not left out. -/
def run (b : List α) : ℕ → ℕ
  | 0 => 0
  | i + 1 => if (b[i]?.bind (b2j b)).isSome then run b i + 1 else 0

theorem run_succ {js : List ℕ} (h : b[i]?.bind (b2j b) = some js) :
    run b (i + 1) = run b i + 1 := by
  rw [run, h]
  rfl

theorem mem_positions {c : α} : i ∈ positions b c ↔ b[i]? = some c := by
  rw [positions, List.mem_filter, List.mem_range, decide_eq_true_iff]
  exact and_iff_right_of_imp fun h => (List.getElem?_eq_some_iff.1 h).1

theorem positions_pairwise (b : List α) (c : α) : (positions b c).Pairwise (· < ·) :=
  List.pairwise_lt_range.filter _

/-- The rows before `i` have been scanned, and the best block stands on the diagonal. -/
structure OnDiagonal (b : List α) (i : ℕ) (j2len : ℕ → ℕ) (best : Block) : Prop where
  le_left : ∀ j, j2len j ≤ run b (j + 1)
  le_up : ∀ j, j2len j ≤ run b i
  diagonal : before j2len i = run b i
  best_eq : best.i = best.j
  le_best : ∀ i' ≤ i, run b i' ≤ best.size

/-- The same within the row of `i`, with the positions `js` still to come: once `i` is done, no
later position makes a longer block. -/
structure InRow (b : List α) (i : ℕ) (js : List ℕ) (newj2len : ℕ → ℕ) (best : Block) : Prop where
  le_left : ∀ j, newj2len j ≤ run b (j + 1)
  le_up : ∀ j, newj2len j ≤ run b (i + 1)
  diagonal : i ∈ js ∨ newj2len i = run b (i + 1)
  best_eq : best.i = best.j
  le_best : ∀ i' ≤ i, run b i' ≤ best.size
  done : i ∈ js ∨ run b (i + 1) ≤ best.size

theorem OnDiagonal.before_le {j2len : ℕ → ℕ} {best : Block} (h : OnDiagonal b i j2len best)
    (j : ℕ) : before j2len j ≤ run b j ∧ before j2len j ≤ run b i := by
  cases j with
  | zero => exact ⟨Nat.zero_le _, Nat.zero_le _⟩
  | succ j => exact ⟨h.le_left j, h.le_up j⟩

/-- One position of the row: only the one on the diagonal can make a longer block. -/
theorem InRow.step {j : ℕ} {js : List ℕ} {j2len newj2len : ℕ → ℕ} {best₀ best : Block}
    (hprev : OnDiagonal b i j2len best₀) (hi : run b (i + 1) = run b i + 1)
    (hj : run b (j + 1) = run b j + 1) (hlt : ∀ j' ∈ js, j < j')
    (h : InRow b i (j :: js) newj2len best) :
    InRow b i js (Function.update newj2len j (before j2len j + 1))
      (if best.size < before j2len j + 1 then
        ⟨i + 1 - (before j2len j + 1), j + 1 - (before j2len j + 1), before j2len j + 1⟩
      else best) := by
  obtain ⟨hleft, hup⟩ := hprev.before_le j
  set k := before j2len j + 1 with hk
  have hdiagonal : j = i → k = run b (i + 1) := by
    rintro rfl
    rw [hk, hi, hprev.diagonal]
  have hold : ∀ j', Function.update newj2len j k j' = if j' = j then k else newj2len j' :=
    fun j' => Function.update_apply newj2len j k j'
  have hbest : j ≠ i → k ≤ best.size := by
    intro hne
    rcases Nat.lt_or_gt_of_ne hne with hlt' | hgt
    · have hle := h.le_best (j + 1) hlt'
      omega
    · rcases h.done with hmem | hle
      · rcases List.mem_cons.1 hmem with heq | hmem
        · exact absurd heq.symm hne
        · exact absurd (hlt i hmem) (by omega)
      · omega
  have hsize : best.size ≤ (if best.size < k then
      (⟨i + 1 - k, j + 1 - k, k⟩ : Block) else best).size := by
    split
    · rename_i hless
      exact hless.le
    · exact le_rfl
  refine ⟨fun j' => ?_, fun j' => ?_, ?_, ?_, fun i' hi' => (h.le_best i' hi').trans hsize, ?_⟩
  · rw [hold]
    split
    · rename_i heq
      rw [heq]
      omega
    · exact h.le_left j'
  · rw [hold]
    split
    · omega
    · exact h.le_up j'
  · rw [hold]
    by_cases hji : j = i
    · rw [if_pos hji.symm]
      exact .inr (hdiagonal hji)
    · rw [if_neg (Ne.symm hji)]
      exact h.diagonal.imp_left fun hmem => (List.mem_cons.1 hmem).resolve_left (Ne.symm hji)
  · split
    · rename_i hless
      have hji : j = i := by
        by_contra hne
        exact absurd (hbest hne) (by omega)
      rw [hji]
    · exact h.best_eq
  · by_cases hji : j = i
    · right
      rw [← hdiagonal hji]
      split
      · exact le_rfl
      · rename_i hless
        exact not_lt.1 hless
    · exact h.done.imp (fun hmem => (List.mem_cons.1 hmem).resolve_left (Ne.symm hji))
        fun hle => hle.trans hsize

theorem scanRow_onDiagonal {j2len : ℕ → ℕ} {best₀ : Block} (hprev : OnDiagonal b i j2len best₀)
    (hi : run b (i + 1) = run b i + 1) {js : List ℕ}
    (hjs : ∀ j ∈ js, run b (j + 1) = run b j + 1 ∧ j < b.length) (hsorted : js.Pairwise (· < ·))
    {newj2len : ℕ → ℕ} {best : Block} (h : InRow b i js newj2len best) :
    let row := scanRow j2len 0 b.length i js newj2len best
    OnDiagonal b (i + 1) row.1 row.2 := by
  induction js generalizing newj2len best with
  | nil =>
    have hrun := h.done.resolve_left List.not_mem_nil
    refine ⟨h.le_left, h.le_up, h.diagonal.resolve_left List.not_mem_nil, h.best_eq,
      fun i' hi' => ?_⟩
    rcases Nat.lt_succ_iff_lt_or_eq.1 (Nat.lt_succ_of_le hi') with hlt | rfl
    · exact h.le_best i' (Nat.lt_succ_iff.1 hlt)
    · exact hrun
  | cons j js ih =>
    obtain ⟨hlt, hsorted⟩ := List.pairwise_cons.1 hsorted
    obtain ⟨hj, hlength⟩ := hjs j List.mem_cons_self
    rw [scanRow, if_neg (Nat.not_lt_zero j), if_neg (Nat.not_le.2 hlength)]
    exact ih (fun j' hj' => hjs j' (List.mem_cons_of_mem j hj')) hsorted
      (h.step hprev hi hj hlt)

theorem scan_onDiagonal {n : ℕ} (hn : i + n = b.length) {j2len : ℕ → ℕ} {best : Block}
    (h : OnDiagonal b i j2len best) : (scan b b 0 b.length n i j2len best).i =
      (scan b b 0 b.length n i j2len best).j := by
  induction n generalizing i j2len best with
  | zero => exact h.best_eq
  | succ n ih =>
    rw [scan]
    split
    · rename_i js hrow
      obtain ⟨c, hc, rfl, -, -⟩ := of_row hrow
      have hi := run_succ hrow
      refine ih (by omega) (scanRow_onDiagonal h hi (fun j hj => ?_) (positions_pairwise b c) ?_)
      · have hsame := mem_positions.1 hj
        rw [hc.trans hsame.symm] at hrow
        exact ⟨run_succ hrow, (List.getElem?_eq_some_iff.1 hsame).1⟩
      · exact ⟨fun _ => Nat.zero_le _, fun _ => Nat.zero_le _, .inl (mem_positions.2 hc), h.best_eq,
          h.le_best, .inl (mem_positions.2 hc)⟩
    · rename_i hrow
      have hzero : run b (i + 1) = 0 := by
        rw [run, hrow]
        rfl
      refine ih (by omega) ⟨fun _ => Nat.zero_le _, fun _ => Nat.zero_le _, hzero.symm, h.best_eq,
        fun i' hi' => ?_⟩
      rcases Nat.lt_succ_iff_lt_or_eq.1 (Nat.lt_succ_of_le hi') with hlt | rfl
      · exact h.le_best i' (Nat.lt_succ_iff.1 hlt)
      · rw [hzero]
        exact Nat.zero_le _

theorem extendLeft_self (b : List α) (i size : ℕ) :
    extendLeft b b 0 0 i i size = ⟨0, 0, size + i⟩ := by
  induction i generalizing size with
  | zero => rfl
  | succ i ih =>
    rw [extendLeft, if_pos ⟨Nat.succ_pos i, Nat.succ_pos i, rfl⟩, ih, Nat.add_assoc,
      Nat.add_comm 1]

theorem extendRight_self {n size : ℕ} (h : size + n = b.length) :
    extendRight b b b.length n ⟨0, 0, size⟩ = ⟨0, 0, b.length⟩ := by
  induction n generalizing size with
  | zero => rw [← h, extendRight, Nat.add_zero]
  | succ n ih =>
    have hlt : 0 + size < b.length := by omega
    have hmore : size + 1 + n = b.length := by omega
    rw [extendRight, if_pos ⟨hlt, rfl⟩]
    exact ih hmore

/-- **The longest block of a string and itself is the string**, popular characters or not. -/
theorem longest_self (b : List α) : longest b b (.whole b b) = ⟨0, 0, b.length⟩ := by
  have hstart : OnDiagonal b 0 (fun _ => 0) ⟨0, 0, 0⟩ := by
    refine ⟨fun _ => Nat.zero_le _, fun _ => Nat.zero_le _, rfl, rfl, fun i' hi' => ?_⟩
    rw [Nat.le_zero.1 hi']
    rfl
  have hdiagonal := scan_onDiagonal (Nat.zero_add _) hstart
  have hcommon : (scan b b 0 b.length b.length 0 (fun _ => 0) ⟨0, 0, 0⟩).CommonIn b b
      (.whole b b) :=
    scan_common le_rfl (Nat.zero_add _) (commonTails_zero le_rfl)
      ⟨le_rfl, Nat.zero_le _, le_rfl, Nat.zero_le _, fun _ hd => absurd hd (Nat.not_lt_zero _)⟩
  have hle := hcommon.i_le
  unfold longest
  simp only [Region.whole, Nat.sub_zero] at hle ⊢
  rw [← hdiagonal, extendLeft_self]
  exact extendRight_self (by dsimp only; omega)

theorem matches_self (b : List α) (n : ℕ) : matchCount b b (n + 1) = some b.length := by
  rw [matchCount, loop, longest_self]
  dsimp only
  split
  · simp [rest, Region.whole, loop]
  · rename_i hempty
    rw [loop, Nat.eq_zero_of_not_pos hempty]

end Diagonal

/-! ## Strings with nothing in common -/

section Apart

variable {a b : List α}

/-- The strings share popular characters only, and not the first. -/
def Apart (a b : List α) : Prop :=
  (∀ c ∈ a, c ∈ b → IsPopular b c) ∧ ∀ c, a[0]? = some c → b[0]? ≠ some c

theorem size_le_scanRow (j2len : ℕ → ℕ) (blo bhi i : ℕ) (js : List ℕ) (newj2len : ℕ → ℕ)
    (best : Block) : best.size ≤ (scanRow j2len blo bhi i js newj2len best).2.size := by
  induction js generalizing newj2len best with
  | nil => exact le_rfl
  | cons j js ih =>
    rw [scanRow]
    split
    · exact ih _ _
    split
    · exact le_rfl
    refine le_trans ?_ (ih _ _)
    split
    · rename_i hless
      exact hless.le
    · exact le_rfl

theorem size_le_scan (a b : List α) (blo bhi n i : ℕ) (j2len : ℕ → ℕ) (best : Block) :
    best.size ≤ (scan a b blo bhi n i j2len best).size := by
  induction n generalizing i j2len best with
  | zero => exact le_rfl
  | succ n ih =>
    rw [scan]
    split
    · exact (size_le_scanRow ..).trans (ih _ _ _)
    · exact ih _ _ _

theorem size_le_extendLeft (a b : List α) (alo blo i j size : ℕ) :
    size ≤ (extendLeft a b alo blo i j size).size := by
  fun_induction extendLeft a b alo blo i j size with
  | case1 i j size _ ih => exact (Nat.le_succ size).trans ih
  | case2 => exact le_rfl
  | case3 => exact le_rfl

theorem size_le_extendRight (a b : List α) (bhi n : ℕ) (m : Block) :
    m.size ≤ (extendRight a b bhi n m).size := by
  induction n generalizing m with
  | zero => exact le_rfl
  | succ n ih =>
    rw [extendRight]
    split
    · have hnext := ih { m with size := m.size + 1 }
      exact (Nat.le_succ m.size).trans hnext
    · exact le_rfl

/-- A row with a position finds a block. -/
theorem scan_pos {n i i' : ℕ} (hi : i ≤ i') (hn : i' < i + n)
    (hrow : (a[i']?.bind (b2j b)).isSome) (j2len : ℕ → ℕ) (best : Block) :
    0 < (scan a b 0 b.length n i j2len best).size := by
  induction n generalizing i j2len best with
  | zero => omega
  | succ n ih =>
    rw [scan]
    rcases Nat.lt_or_eq_of_le hi with hlt | rfl
    · split
      · exact ih hlt (by omega) _ _
      · exact ih hlt (by omega) _ _
    · obtain ⟨js, hjs⟩ := Option.isSome_iff_exists.1 hrow
      obtain ⟨c, -, hpositions, hne, -⟩ := of_row hjs
      obtain ⟨j, js', hcons⟩ := List.exists_cons_of_ne_nil hne
      have hj : j < b.length := by
        have hmem : j ∈ positions b c := by
          rw [← hpositions, hcons]
          exact List.mem_cons_self
        exact (List.getElem?_eq_some_iff.1 (mem_positions.1 hmem)).1
      rw [hjs, hcons]
      dsimp only
      rw [scanRow, if_neg (Nat.not_lt_zero j), if_neg (Nat.not_le.2 hj)]
      refine lt_of_lt_of_le ?_ ((size_le_scanRow ..).trans (size_le_scan ..))
      split
      · exact Nat.succ_pos _
      · rename_i hless
        omega

theorem scan_of_none {n i blo bhi : ℕ} (h : ∀ i : ℕ, a[i]?.bind (b2j b) = none) (j2len : ℕ → ℕ)
    (best : Block) : scan a b blo bhi n i j2len best = best := by
  induction n generalizing i j2len with
  | zero => rfl
  | succ n ih =>
    rw [scan, h]
    exact ih _

theorem b2j_eq_none_iff {c : α} : b2j b c = none ↔ (c ∈ b → IsPopular b c) := by
  have hmem : positions b c = [] ↔ c ∉ b := by
    rw [List.eq_nil_iff_forall_not_mem, List.mem_iff_getElem?, not_exists]
    exact forall_congr' fun j => not_congr mem_positions
  unfold b2j
  split
  · rename_i hnull
    exact iff_of_true rfl fun hc => hnull.resolve_left fun hnil => hmem.1 hnil hc
  · rename_i hnull
    obtain ⟨hne, hpop⟩ := not_or.1 hnull
    exact iff_of_false nofun fun hall => hpop (hall (not_not.1 fun hc => hne (hmem.2 hc)))

theorem rows_none_iff :
    (∀ i : ℕ, a[i]?.bind (b2j b) = none) ↔ ∀ c ∈ a, c ∈ b → IsPopular b c := by
  constructor
  · intro h c hc
    obtain ⟨i, hi⟩ := List.mem_iff_getElem?.1 hc
    have hrow := h i
    rw [hi] at hrow
    exact b2j_eq_none_iff.1 hrow
  · intro h i
    cases hi : a[i]? with
    | none => rfl
    | some c => exact b2j_eq_none_iff.2 (h c (List.mem_of_getElem? hi))

/-- **Nothing is matched just if the strings are apart.** -/
theorem longest_size_eq_zero_iff : (longest a b (.whole a b)).size = 0 ↔ Apart a b := by
  have hright (hrows : ∀ i : ℕ, a[i]?.bind (b2j b) = none) :
      longest a b (.whole a b) = extendRight a b b.length a.length ⟨0, 0, 0⟩ := by
    unfold longest
    simp only [Region.whole, scan_of_none hrows]
    rfl
  constructor
  · intro hzero
    have hrows : ∀ i : ℕ, a[i]?.bind (b2j b) = none := by
      intro i
      by_contra hsome
      have hrow := Option.isSome_iff_ne_none.2 hsome
      have hi : i < 0 + a.length := by
        rw [Nat.zero_add]
        by_contra hge
        exact hsome (by rw [List.getElem?_eq_none (not_lt.1 hge)]; rfl)
      have hpos := scan_pos (Nat.zero_le i) hi hrow (fun _ => 0) ⟨0, 0, 0⟩
      have hle := (size_le_extendLeft a b 0 0 _ _ _).trans (size_le_extendRight a b b.length
        (a.length - _) (extendLeft a b 0 0 _ _ _)) |>.trans_eq hzero
      exact absurd hle (Nat.not_le.2 hpos)
    refine ⟨rows_none_iff.1 hrows, fun c hac hbc => ?_⟩
    rw [hright hrows] at hzero
    obtain ⟨n, hn⟩ := Nat.exists_eq_add_of_lt (List.getElem?_eq_some_iff.1 hac).1
    have hb := (List.getElem?_eq_some_iff.1 hbc).1
    rw [(by omega : a.length = n + 1), extendRight, if_pos ⟨hb, hac.trans hbc.symm⟩] at hzero
    have hle := (size_le_extendRight a b b.length n ⟨0, 0, 1⟩).trans_eq hzero
    exact absurd hle (by decide)
  · rintro ⟨hpopular, hfirst⟩
    rw [hright (rows_none_iff.2 hpopular)]
    cases hn : a.length with
    | zero => rfl
    | succ n =>
      rw [extendRight, if_neg]
      rintro ⟨-, hsame⟩
      obtain ⟨c, hc⟩ : ∃ c, a[0]? = some c := ⟨_, List.getElem?_eq_getElem (by omega)⟩
      exact hfirst c hc (hsame ▸ hc)

/-- What the loop counts, as far as it is nothing. -/
theorem total_eq_zero_iff {rounds total : ℕ} (h : matchCount a b rounds = some total) :
    total = 0 ↔ Apart a b := by
  rw [← longest_size_eq_zero_iff]
  cases rounds with
  | zero => exact nomatch h
  | succ rounds =>
    rw [matchCount, loop] at h
    split at h
    · rename_i hpos
      have hle := le_of_loop h
      constructor
      · intro hzero
        omega
      · intro hzero
        omega
    · rename_i hzero
      rw [loop] at h
      obtain rfl := Option.some.inj h
      exact iff_of_true rfl (Nat.eq_zero_of_not_pos hzero)

end Apart

/-! ## The ratio as a measure -/

section Ratio

variable {a b : CodePoints} {n m : ℕ}

/-- The claim of the ratio to be a measure of equality: what is counted is a common subsequence, the
loop ends, and the ratio is a number between 0 and 1 that is 1 for equal strings only. -/
def Sound (a b : CodePoints) : Prop :=
  ∃ l, Blocks a.1 b.1 (.whole a.1 b.1) l ∧
    (∃ s : List CodePoint, s.length = Blocks.total l ∧ s.Sublist a.1 ∧ s.Sublist b.1) ∧
    ∃ q, (∀ rounds, 2 * a.1.length + 1 ≤ rounds →
        matchCount a.1 b.1 rounds = some (Blocks.total l) ∧ ratio a b rounds = some q) ∧
      0 ≤ q ∧ q ≤ 1 ∧ (q = 1 ↔ a = b)

theorem fl_two_mul (h : m < 2 ^ 31) : Binary64.fl (2 * m) = 2 * m := by
  have hfl : Binary64.fl ((2 * m : ℕ) : ℚ) = ((2 * m : ℕ) : ℚ) := Binary64.fl_natCast (by omega)
  push_cast at hfl
  exact hfl

/-- Rounding does not take a quotient to one that is less. -/
theorem fl_div_lt_one (h : m < n) (hn : n < 2 ^ 31) : Binary64.fl (m / n) < 1 := by
  have hpos : (0 : ℚ) < n := by exact_mod_cast Nat.zero_lt_of_lt h
  have hsmall : (n : ℚ) < 2 ^ 31 := by exact_mod_cast hn
  have hsucc : (m : ℚ) + 1 ≤ n := by exact_mod_cast h
  have hlt : (m : ℚ) / n < 1 := (div_lt_one hpos).2 (by linarith)
  have hgap : (m : ℚ) / n ≤ 1 - 1 / 2 ^ 31 := by
    rw [div_le_iff₀ hpos]
    linarith
  have herror := abs_le.1 (Binary64.abs_fl_sub_le_of_lt_one (by positivity) hlt)
  norm_num at hgap herror ⊢
  linarith [herror.2]

theorem fl_div_pos (hm : 0 < m) (hn : 0 < n) (h : n ≤ 2 ^ 31) : 0 < Binary64.fl (2 * m / n) := by
  have hone : (1 : ℚ) ≤ m := by exact_mod_cast hm
  have hpos : (0 : ℚ) < n := by exact_mod_cast hn
  have hle : (n : ℚ) ≤ 2 ^ 31 := by exact_mod_cast h
  have hbound : (1 / 2 ^ 30 : ℚ) ≤ 2 * m / n := by
    rw [le_div_iff₀ hpos]
    linarith
  have herror := abs_le.1 (Binary64.abs_fl_sub_le_of_lt_one (x := 1 / 2 ^ 30) (by norm_num)
    (by norm_num))
  have hfl := Binary64.fl_mono hbound
  norm_num at herror hfl ⊢
  linarith [herror.1]

theorem bmod_of_lt (h : n < 2 ^ 31) : (n : ℤ).bmod (2 ^ 32) = n :=
  Int.bmod_eq_of_le (by omega) (by omega)

theorem neg_bmod (hpos : 0 < n) (h : n ≤ 2 ^ 31) : (-(n : ℤ)).bmod (2 ^ 32) = -(n : ℤ) :=
  Int.bmod_eq_of_le (by omega) (by omega)

theorem lengths_of_lt (h : a.1.length + b.1.length < 2 ^ 31) :
    lengths a b = ((a.1.length + b.1.length : ℕ) : ℤ) := by
  have hwrap := bmod_of_lt h
  rw [Nat.cast_add] at hwrap ⊢
  exact hwrap

theorem lengths_of_le (h : 2 ^ 31 ≤ a.1.length + b.1.length) :
    ∃ n : ℕ, 0 < n ∧ n ≤ 2 ^ 31 ∧ lengths a b = -(n : ℤ) := by
  have ha := a.2
  have hb := b.2
  obtain ⟨n, hn⟩ : ∃ n, a.1.length + b.1.length + n = 2 ^ 32 :=
    ⟨2 ^ 32 - (a.1.length + b.1.length), by omega⟩
  have hpos : 0 < n := by omega
  have hle : n ≤ 2 ^ 31 := by omega
  refine ⟨n, hpos, hle, ?_⟩
  have hsum : (a.1.length + b.1.length : ℤ) = -(n : ℤ) + (2 ^ 32 : ℕ) := by omega
  unfold lengths
  rw [hsum, Int.add_bmod_right]
  exact neg_bmod hpos hle

/-- The ratio of a sum that is an `int` is between 0 and 1. -/
theorem ratio_of_lt (h : a.1.length + b.1.length < 2 ^ 31) {rounds total : ℕ}
    (hcount : matchCount a.1 b.1 rounds = some total)
    (htotal : 2 * total ≤ a.1.length + b.1.length) :
    ∃ q, ratio a b rounds = some q ∧ 0 ≤ q ∧ q ≤ 1 ∧
      (q = 1 ↔ 2 * total = a.1.length + b.1.length) := by
  unfold ratio
  simp only [lengths_of_lt h, hcount, Option.map_some]
  set n := a.1.length + b.1.length with hn
  rcases Nat.eq_zero_or_pos n with hzero | hpos
  · rw [hzero, Nat.cast_zero, if_pos rfl]
    exact ⟨1, rfl, zero_le_one, le_rfl, iff_of_true rfl (by omega)⟩
  · have hposq : (0 : ℚ) < n := by exact_mod_cast hpos
    have hcast : ((n : ℤ) : ℚ) = n := Int.cast_natCast n
    have hnonneg : (0 : ℚ) ≤ 2 * total / n := by positivity
    have hle : (2 * total / n : ℚ) ≤ 1 := (div_le_one hposq).2 (by exact_mod_cast htotal)
    rw [if_neg (by omega), hcast, fl_two_mul (by omega)]
    refine ⟨_, rfl, Binary64.fl_nonneg hnonneg, Binary64.fl_le_one hnonneg hle, ?_⟩
    constructor
    · intro hone
      by_contra hne
      have hlt := fl_div_lt_one (m := 2 * total) (n := n) (by omega) h
      push_cast at hlt
      exact absurd hone hlt.ne
    · intro heq
      have hdiv : (2 * total / n : ℚ) = 1 := by
        rw [div_eq_one_iff_eq hposq.ne']
        exact_mod_cast heq
      have hfl : Binary64.fl ((1 : ℕ) : ℚ) = ((1 : ℕ) : ℚ) := Binary64.fl_natCast (by norm_num)
      rw [hdiv]
      exact_mod_cast hfl

/-- The ratio of a sum that is no `int` is negative, or zero where nothing is matched. -/
theorem ratio_of_le (h : 2 ^ 31 ≤ a.1.length + b.1.length) {rounds total : ℕ}
    (hcount : matchCount a.1 b.1 rounds = some total) (htotal : total ≤ a.1.length) :
    ∃ q, ratio a b rounds = some q ∧ (total = 0 → q = 0) ∧ (0 < total → q < 0) := by
  have ha := a.2
  obtain ⟨n, hpos, hle, hlengths⟩ := lengths_of_le h
  unfold ratio
  simp only [hlengths, hcount, Option.map_some]
  have hcast : ((-(n : ℤ) : ℤ) : ℚ) = -(n : ℚ) := by push_cast; rfl
  rw [if_neg (by omega), hcast, fl_two_mul (by omega), div_neg, Binary64.fl_neg]
  refine ⟨_, rfl, ?_, fun htotal => ?_⟩
  · rintro rfl
    rw [Nat.cast_zero, mul_zero, zero_div, Binary64.fl_zero, neg_zero]
  · exact neg_neg_of_pos (fl_div_pos htotal hpos hle)

/-- Strings with something in common and too many characters for an `int` have no ratio. -/
theorem not_sound (h : 2 ^ 31 ≤ a.1.length + b.1.length) (hcommon : ¬ Apart a.1 b.1) :
    ¬ Sound a b := by
  rintro ⟨l, hl, -, q, hrounds, hnonneg, -⟩
  obtain ⟨hcount, hratio⟩ := hrounds _ le_rfl
  obtain ⟨q', hq', -, hneg⟩ := ratio_of_le h hcount hl.total_le.1
  obtain rfl := Option.some.inj (hratio.symm.trans hq')
  have htotal : 0 < Blocks.total l := by
    rw [Nat.pos_iff_ne_zero]
    exact fun hzero => hcommon ((total_eq_zero_iff hcount).1 hzero)
  exact absurd (hneg htotal) (not_lt.2 hnonneg)

theorem ratio_congr {rounds rounds' : ℕ}
    (h : matchCount a.1 b.1 rounds = matchCount a.1 b.1 rounds') :
    ratio a b rounds = ratio a b rounds' := by
  unfold ratio
  rw [h]

/-- All characters of both strings are matched just if the strings are equal. -/
theorem two_mul_total_iff {l : List Block} (hl : Blocks a.1 b.1 (.whole a.1 b.1) l) {rounds : ℕ}
    (hcount : matchCount a.1 b.1 (rounds + 1) = some (Blocks.total l)) :
    2 * Blocks.total l = a.1.length + b.1.length ↔ a = b := by
  constructor
  · intro htotal
    exact Subtype.ext (hl.eq_of_total htotal)
  · rintro rfl
    rw [matches_self] at hcount
    have htotal := Option.some.inj hcount
    omega

/-- **The ratio is a sound measure just if** the sum of the lengths is an `int` or nothing is
matched. -/
theorem sound_iff (a b : CodePoints) :
    Sound a b ↔ a.1.length + b.1.length < 2 ^ 31 ∨ Apart a.1 b.1 := by
  constructor
  · intro hsound
    by_contra hnot
    obtain ⟨hlong, hcommon⟩ := not_or.1 hnot
    exact not_sound (not_lt.1 hlong) hcommon hsound
  · intro hcond
    obtain ⟨l, hl, hcount⟩ := matches_blocks a.1 b.1
    have hle := hl.total_le
    have hone := hcount _ le_rfl
    have hequal := two_mul_total_iff hl hone
    have hrounds {q : ℚ} (hq : ratio a b (2 * a.1.length + 1) = some q) :
        ∀ rounds, 2 * a.1.length + 1 ≤ rounds →
          matchCount a.1 b.1 rounds = some (Blocks.total l) ∧ ratio a b rounds = some q :=
      fun rounds hr => ⟨hcount rounds hr,
        (ratio_congr ((hcount rounds hr).trans hone.symm)).trans hq⟩
    refine ⟨l, hl, hl.common, ?_⟩
    rcases Nat.lt_or_ge (a.1.length + b.1.length) (2 ^ 31) with hlt | hge
    · obtain ⟨q, hq, hnonneg, hq1, hiff⟩ := ratio_of_lt hlt hone (by omega)
      exact ⟨q, hrounds hq, hnonneg, hq1, hiff.trans hequal⟩
    · have hapart := hcond.resolve_left (not_lt.2 hge)
      have hzero := (total_eq_zero_iff hone).2 hapart
      obtain ⟨q, hq, hq0, -⟩ := ratio_of_le hge hone hle.1
      obtain rfl := hq0 hzero
      refine ⟨0, hrounds hq, le_rfl, zero_le_one, iff_of_false zero_ne_one fun heq => ?_⟩
      have hall := hequal.2 heq
      omega

/-- Two equal strings of 2³⁰ characters. -/
def longName : CodePoints :=
  ⟨List.replicate (2 ^ 30) (ch 'a'), by rw [List.length_replicate]; omega⟩

theorem longName_not_sound : ¬ Sound longName longName := by
  have hlength : longName.1.length = 2 ^ 30 := List.length_replicate
  refine not_sound (by omega) fun hapart => ?_
  have hfirst : longName.1[0]? = some (ch 'a') := by
    rw [longName, List.getElem?_replicate]
    exact if_pos (by omega)
  exact hapart.2 _ hfirst hfirst

end Ratio

end RagLeap.Graph.SequenceMatch
