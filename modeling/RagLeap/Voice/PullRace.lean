import Mathlib
import RagLeap.Voice.Pull

/-!
# Interleaved pulls of one model

Any number of calls of `pull_model` for one entry run over one cache, each statement atomic; a call
that is killed takes no further statement. Every call deletes its staging directory when it fails,
also when it has failed because the directory was there already.

`installed_is_verified`: what stands at the model's place at the end of a schedule passes
`verify_dir`, if no call draws a staging name that another call has drawn and not given back.
-/

namespace RagLeap.Voice

variable {env : PullEnv} {lock : Lock} {entry : Entry}

/-! ## What a statement changes -/

/-- The states differ under one staging name only. -/
structure OnlyAt (name : Str) (s s' : Cache) : Prop where
  dest : s'.dest = s.dest
  staging : ∀ name', name' ≠ name → s'.staging name' = s.staging name'
  owners : s'.owners = s.owners

namespace OnlyAt

theorem refl (name : Str) (s : Cache) : OnlyAt name s s := ⟨rfl, fun _ _ => rfl, rfl⟩

theorem set (name : Str) (node : Option Node) (s : Cache) : OnlyAt name s (s.set name node) :=
  ⟨rfl, fun _ hne => Function.update_of_ne hne _ _, rfl⟩

theorem change (name : Str) (f : Tree → Tree) (s : Cache) : OnlyAt name s (s.change name f) := by
  unfold Cache.change
  split
  · exact set _ _ _
  · exact refl _ _

theorem makeStaging {name : Str} {s s' : Cache} (h : s.makeStaging name = some s') :
    OnlyAt name s s' := by
  unfold Cache.makeStaging at h
  split at h
  · cases h
    exact set _ _ _
  · cases h

theorem makeParents {name : Str} {path : List Str} {s s' : Cache}
    (h : s.makeParents name path = some s') : OnlyAt name s s' := by
  unfold Cache.makeParents at h
  split at h
  · cases h
  · obtain ⟨tree, -, rfl⟩ := Option.map_eq_some_iff.1 h
    exact set _ _ _

theorem create {name : Str} {path : List Str} {s s' : Cache}
    (h : s.create name path = some s') : OnlyAt name s s' := by
  unfold Cache.create at h
  split at h
  · split at h
    · cases h
      exact set _ _ _
    · cases h
  · cases h

theorem rmdir (name : Str) (s : Cache) : OnlyAt name s (s.rmdir name) := by
  unfold Cache.rmdir
  split
  · exact set _ _ _
  · exact refl _ _

end OnlyAt

/-- The statements that change a staging directory and nothing else. -/
def Op.changes : Op → Option Str
  | makeStaging name => some name
  | makeParents name _ => some name
  | create name _ => some name
  | write name .. => some name
  | list name => some name
  | unlink name _ => some name
  | _ => none

theorem act_changes {o : Op} {name : Str} {w : Choice} {s s' : Cache} {r : Option o.Ans}
    (ho : o.changes = some name) (h : act env lock o w s = some (r, s')) : OnlyAt name s s' := by
  have hmap : ∀ {x : Option Cache} {a : Option o.Ans},
      x.map (fun t => (a, t)) = some (r, s') → x = some s' := by
    intro x a hx
    obtain ⟨t, rfl, ht⟩ := Option.map_eq_some_iff.1 hx
    cases ht
    rfl
  cases o with
  | makeStaging name' =>
    cases ho
    cases w with
    | goes => exact .makeStaging (hmap h)
    | raisesAfter => exact .makeStaging (hmap h)
    | raises => cases h; exact .refl _ _
    | _ => cases h
  | makeParents name' path =>
    cases ho
    cases w with
    | goes => exact .makeParents (hmap h)
    | part k => exact .makeParents (hmap h)
    | raises => cases h; exact .refl _ _
    | _ => cases h
  | create name' path =>
    cases ho
    cases w with
    | goes => exact .create (hmap h)
    | raisesAfter => exact .create (hmap h)
    | raises => cases h; exact .refl _ _
    | _ => cases h
  | write name' path bytes =>
    cases ho
    cases w with
    | goes => cases h; exact .change _ _ _
    | part k => cases h; exact .change _ _ _
    | raises => cases h; exact .refl _ _
    | _ => cases h
  | list name' =>
    cases ho
    cases w with
    | goes => cases h; exact .refl _ _
    | raises => cases h; exact .refl _ _
    | _ => cases h
  | unlink name' path =>
    cases ho
    cases w with
    | goes => cases h; exact .change _ _ _
    | raises => cases h; exact .refl _ _
    | _ => cases h
  | _ => cases ho

/-- A directory that comes to the model's place was in the staging directory, and nothing or an empty
directory stood there. -/
theorem rename_eq_some {name : Str} {s s' : Cache} (h : s.rename name = some s') :
    (s.dest = none ∨ s.dest = some (.dir [])) ∧ s'.dest = s.staging name ∧
      (∀ name', name' ≠ name → s'.staging name' = s.staging name') ∧ s'.owners = s.owners := by
  unfold Cache.rename at h
  split at h
  · rename_i node hnode hdest
    cases h
    exact ⟨.inl hdest, hnode.symm, (OnlyAt.set name none s).staging, rfl⟩
  · rename_i tree hnode hdest
    cases h
    exact ⟨.inr hdest, hnode.symm, (OnlyAt.set name none s).staging, rfl⟩
  · cases h

/-! ## The invariant -/

variable {ι : Type} [DecidableEq ι]

variable (env lock) in
/-- What a call relies on in its phase, where `dest₀` stood at the model's place at the start. -/
structure PhaseInv (dest₀ : Option Node) (s : Cache) (φ : Phase) : Prop where
  absent : φ = .absent → dest₀ = none
  staging : ∀ name, φ.place = .staging name → dest₀ = none ∧ lock.files ≠ [] ∧ name ∈ s.owners
  checking : ∀ p done, φ = .checking p done →
    ∃ tree, s.get p = some (.dir tree) ∧ ∀ f ∈ done, fileProblem env tree f = none
  passed : ∀ p, φ = .passed p → ∃ node, s.get p = some node ∧ Verified env lock node

variable (env lock) in
/-- What stands at the model's place was there or is verified, every call can rely on what it has
found, and no two calls have one staging directory. -/
structure PullInv (dest₀ : Option Node) (φ : ι → Phase) (s : Cache) : Prop where
  dest : s.dest = dest₀ ∨ dest₀ = none ∧ ∃ node, s.dest = some node ∧ Verified env lock node
  calls : ∀ i, PhaseInv env lock dest₀ s (φ i)
  unshared : ∀ i j name, (φ i).place = .staging name → (φ j).place = .staging name → i = j

variable {dest₀ : Option Node}

theorem PhaseInv.at_dest (s : Cache) : PhaseInv env lock dest₀ s (.at .dest) :=
  ⟨nofun, nofun, nofun, nofun⟩

/-- A call relies on the directory at its place only. -/
theorem PhaseInv.frame {s s' : Cache} {φ : Phase} (h : PhaseInv env lock dest₀ s φ)
    (hget : ∀ node, s.get φ.place = some node → s'.get φ.place = some node)
    (howners : ∀ name, φ.place = .staging name → name ∈ s.owners → name ∈ s'.owners) :
    PhaseInv env lock dest₀ s' φ where
  absent := h.absent
  staging name hname :=
    have ⟨hnone, hfiles, howner⟩ := h.staging name hname
    ⟨hnone, hfiles, howners name hname howner⟩
  checking p done hφ := by
    obtain ⟨tree, htree, hdone⟩ := h.checking p done hφ
    subst hφ
    exact ⟨tree, hget _ htree, hdone⟩
  passed p hφ := by
    obtain ⟨node, hnode, hverified⟩ := h.passed p hφ
    subst hφ
    exact ⟨node, hget _ hnode, hverified⟩

/-- A step of one call, seen from the others. -/
theorem PullInv.update {φ : ι → Phase} {i : ι} {φ' : Phase} {s s' : Cache}
    (h : PullInv env lock dest₀ φ s)
    (hdest : s'.dest = s.dest ∨
      s.dest = none ∧ dest₀ = none ∧ ∃ node, s'.dest = some node ∧ Verified env lock node)
    (hstaging : ∀ name, (φ i).place ≠ .staging name →
      s'.staging name = s.staging name ∧ (name ∈ s.owners → name ∈ s'.owners))
    (hphase : PhaseInv env lock dest₀ s' φ')
    (hplace : ∀ name, φ'.place = .staging name → (φ i).place = .staging name ∨ name ∉ s.owners) :
    PullInv env lock dest₀ (Function.update φ i φ') s' where
  dest := by
    rcases hdest with hsame | ⟨-, hnone, hnew⟩
    · rw [hsame]
      exact h.dest
    · exact .inr ⟨hnone, hnew⟩
  calls j := by
    rcases eq_or_ne j i with rfl | hne
    · rw [Function.update_self]
      exact hphase
    · rw [Function.update_of_ne hne]
      have hother : ∀ name, (φ j).place = .staging name → (φ i).place ≠ .staging name :=
        fun name hj hi => hne (h.unshared j i name hj hi)
      refine (h.calls j).frame ?_ fun name hj => (hstaging name (hother name hj)).2
      intro node hnode
      cases hj : (φ j).place with
      | staging name =>
        rw [hj] at hnode
        exact (hstaging name (hother name hj)).1.trans hnode
      | dest =>
        rw [hj] at hnode
        rcases hdest with hsame | ⟨hnone, -⟩
        · exact hsame.trans hnode
        · exact absurd (hnone.symm.trans hnode) nofun
  unshared j k name hj hk := by
    rcases eq_or_ne j i with rfl | hji
    · rcases eq_or_ne k j with rfl | hkj
      · rfl
      · rw [Function.update_self] at hj
        rw [Function.update_of_ne hkj] at hk
        rcases hplace name hj with hi | hnew
        · exact h.unshared j k name hi hk
        · exact absurd ((h.calls k).staging name hk).2.2 hnew
    · rw [Function.update_of_ne hji] at hj
      rcases eq_or_ne k i with rfl | hki
      · rw [Function.update_self] at hk
        rcases hplace name hk with hi | hnew
        · exact h.unshared j k name hj hi
        · exact absurd ((h.calls j).staging name hj).2.2 hnew
      · rw [Function.update_of_ne hki] at hk
        exact h.unshared j k name hj hk

/-- A statement that leaves the cache as it is. -/
theorem PullInv.same {φ : ι → Phase} {i : ι} {φ' : Phase} {s : Cache}
    (h : PullInv env lock dest₀ φ s) (hphase : PhaseInv env lock dest₀ s φ')
    (hplace : φ'.place = (φ i).place) : PullInv env lock dest₀ (Function.update φ i φ') s :=
  h.update (.inl rfl) (fun _ _ => ⟨rfl, id⟩) hphase fun _ hname => .inl (hplace ▸ hname)

/-- No call draws a name that another call has drawn and not given back. -/
def Fresh (_ : ι) : Op → Choice → Cache → Prop
  | .draw, .drawn name, s => name ∉ s.owners
  | _, _, _ => True

theorem PullInv.of_eq {φ : ι → Phase} {i : ι} {s : Cache} (h : PullInv env lock dest₀ φ s) :
    PullInv env lock dest₀ (Function.update φ i (φ i)) s := by
  rw [Function.update_eq_self]
  exact h

/-- A call that changes the staging directory it has drawn. -/
theorem PullInv.changed {φ : ι → Phase} {i : ι} {name : Str} {s s' : Cache}
    (h : PullInv env lock dest₀ φ s) (hφ : φ i = .at (.staging name)) (hs : OnlyAt name s s') :
    PullInv env lock dest₀ (Function.update φ i (.at (.staging name))) s' := by
  refine h.update (.inl hs.dest) ?_ ⟨nofun, ?_, nofun, nofun⟩ ?_
  · intro name' hne
    rw [hs.owners]
    refine ⟨hs.staging name' fun heq => hne ?_, id⟩
    rw [hφ, heq]
    rfl
  · intro name' hname
    cases hname
    rw [hs.owners]
    exact (h.calls i).staging name (by rw [hφ]; rfl)
  · intro name' hname
    rw [hφ]
    exact .inl hname

/-- A call that goes back to where it verifies a directory from. -/
theorem PhaseInv.back {s : Cache} {φ : Phase} {p : Place} (h : PhaseInv env lock dest₀ s φ)
    (hplace : φ.place = p) : PhaseInv env lock dest₀ s (.at p) :=
  ⟨nofun, fun name hname => h.staging name (hplace.trans hname), nofun, nofun⟩

theorem PullInv.step_check {φ : ι → Phase} {i : ι} {p : Place} {f : LockFile} {w : Choice}
    {s s' : Cache} {r : Option (Option Str)} (h : PullInv env lock dest₀ φ s)
    (hp : φ i = .at p ∨ ∃ done, φ i = .checking p done)
    (hact : act env lock (.check p f) w s = some (r, s')) :
    ∃ φ', (pulling lock).next (φ i) (.check p f) r = some φ' ∧
      PullInv env lock dest₀ (Function.update φ i φ') s' := by
  have hsame : s' = s := by
    cases w with
    | goes =>
      simp only [act] at hact
      split at hact <;> cases hact <;> rfl
    | raises => cases hact; rfl
    | _ => cases hact
  subst hsame
  rcases hp with hφ | ⟨done, hφ⟩
  · have hplace : (φ i).place = p := by
      rw [hφ]
      rfl
    exact ⟨.at p, by rw [hφ], h.same ((h.calls i).back hplace) hplace.symm⟩
  · refine ⟨if r = some none then .checking p (done ++ [f]) else .at p, by rw [hφ], ?_⟩
    have hplace : (φ i).place = p := by
      rw [hφ]
      rfl
    split
    · rename_i hr
      subst hr
      refine h.same ⟨nofun, fun name hname => (h.calls i).staging name (hplace.trans hname), ?_,
        nofun⟩ hplace.symm
      rintro p' done' ⟨⟩
      obtain ⟨tree, htree, hdone⟩ := (h.calls i).checking p done hφ
      refine ⟨tree, htree, fun g hg => ?_⟩
      rcases List.mem_append.1 hg with hg | hg
      · exact hdone g hg
      · obtain rfl := List.mem_singleton.1 hg
        cases w with
        | goes =>
          simp only [act, htree] at hact
          injection hact with hact
          injection hact with hact
          injection hact
        | raises => cases hact
        | _ => cases hact
    · exact h.same ((h.calls i).back hplace) hplace.symm

theorem PullInv.step_walk {φ : ι → Phase} {i : ι} {p : Place} {w : Choice} {s s' : Cache}
    {r : Option (List Str)} (h : PullInv env lock dest₀ φ s)
    (hp : φ i = .at p ∨ φ i = .checking p lock.files)
    (hact : act env lock (.walk p) w s = some (r, s')) :
    ∃ φ', (pulling lock).next (φ i) (.walk p) r = some φ' ∧
      PullInv env lock dest₀ (Function.update φ i φ') s' := by
  have hsame : s' = s := by
    cases w with
    | goes =>
      simp only [act] at hact
      split at hact <;> cases hact <;> rfl
    | raises => cases hact; rfl
    | _ => cases hact
  subst hsame
  rcases hp with hφ | hφ
  · have hplace : (φ i).place = p := by
      rw [hφ]
      rfl
    exact ⟨.at p, by rw [hφ], h.same ((h.calls i).back hplace) hplace.symm⟩
  · refine ⟨if r = some [] then .passed p else .at p, by rw [hφ], ?_⟩
    have hplace : (φ i).place = p := by
      rw [hφ]
      rfl
    split
    · rename_i hr
      subst hr
      refine h.same ⟨nofun, fun name hname => (h.calls i).staging name (hplace.trans hname), nofun,
        ?_⟩ hplace.symm
      rintro p' ⟨⟩
      obtain ⟨tree, htree, hdone⟩ := (h.calls i).checking p lock.files hφ
      refine ⟨.dir tree, htree, verified_dir_iff.2 ⟨hdone, ?_⟩⟩
      cases w with
      | goes =>
        simp only [act, htree] at hact
        injection hact with hact
        injection hact with hact
        injection hact
      | raises => cases hact
      | _ => cases hact
    · exact h.same ((h.calls i).back hplace) hplace.symm

theorem PullInv.step_rename {φ : ι → Phase} {i : ι} {name : Str} {w : Choice} {s s' : Cache}
    {r : Option Unit} (h : PullInv env lock dest₀ φ s) (hφ : φ i = .passed (.staging name))
    (hact : act env lock (.rename name) w s = some (r, s')) :
    ∃ φ', (pulling lock).next (φ i) (.rename name) r = some φ' ∧
      PullInv env lock dest₀ (Function.update φ i φ') s' := by
  have hplace : (φ i).place = .staging name := by
    rw [hφ]
    rfl
  obtain ⟨hnone, hfiles, howner⟩ := (h.calls i).staging name hplace
  obtain ⟨node, hnode, hverified⟩ := (h.calls i).passed _ hφ
  -- nothing stood at the model's place: what would stand there is verified, so not empty
  have hrename : ∀ t, s.rename name = some t → s.dest = none ∧ t.dest = some node ∧
      (∀ name', name' ≠ name → t.staging name' = s.staging name') ∧ t.owners = s.owners := by
    intro t ht
    obtain ⟨hdest, hnew, hothers, howners⟩ := rename_eq_some ht
    refine ⟨?_, hnew.trans hnode, hothers, howners⟩
    rcases hdest with hdest | hdest
    · exact hdest
    · rcases h.dest with hsame | ⟨-, node', hnode', hverified'⟩
      · rw [hsame, hnone] at hdest
        cases hdest
      · rw [hdest] at hnode'
        cases hnode'
        exact absurd rfl (tree_ne_nil_of_verified hfiles hverified')
  cases w with
  | goes =>
    obtain ⟨t, ht, heq⟩ := Option.map_eq_some_iff.1 hact
    cases heq
    obtain ⟨hdest, hnew, hothers, howners⟩ := hrename _ ht
    refine ⟨.passed .dest, rfl, h.update (.inr ⟨hdest, hnone, node, hnew, hverified⟩) ?_ ?_ nofun⟩
    · intro name' hne
      have hne' : name' ≠ name := fun heq => hne (heq ▸ hplace)
      refine ⟨hothers name' hne', fun hmem => List.mem_filter.2 ⟨howners ▸ hmem, ?_⟩⟩
      exact decide_eq_true hne'
    · refine ⟨nofun, nofun, nofun, ?_⟩
      rintro p ⟨⟩
      exact ⟨node, hnew, hverified⟩
  | raisesAfter =>
    obtain ⟨t, ht, heq⟩ := Option.map_eq_some_iff.1 hact
    cases heq
    obtain ⟨hdest, hnew, hothers, howners⟩ := hrename _ ht
    refine ⟨.at (.staging name), rfl,
      h.update (.inr ⟨hdest, hnone, node, hnew, hverified⟩) ?_ ?_ ?_⟩
    · intro name' hne
      exact ⟨hothers name' fun heq => hne (heq ▸ hplace), fun hmem => howners ▸ hmem⟩
    · refine ⟨nofun, ?_, nofun, nofun⟩
      rintro name' ⟨⟩
      exact ⟨hnone, hfiles, howners ▸ howner⟩
    · rintro name' ⟨⟩
      exact .inl hplace
  | raises =>
    cases hact
    exact ⟨.at (.staging name), rfl, h.same ((h.calls i).back hplace) hplace.symm⟩
  | _ => cases hact

/-- Every permitted statement of a call keeps the invariant. -/
theorem PullInv.step {φ : ι → Phase} {i : ι} {o : Op} {w : Choice} {s s' : Cache} {r : Option o.Ans}
    (h : PullInv env lock dest₀ φ s) (hp : (pulling lock).permits (φ i) o) (hfresh : Fresh i o w s)
    (hact : act env lock o w s = some (r, s')) :
    ∃ φ', (pulling lock).next (φ i) o r = some φ' ∧
      PullInv env lock dest₀ (Function.update φ i φ') s' := by
  cases o with
  | destExists =>
    have hφ : φ i = .at .dest := hp
    have hplace : (φ i).place = .dest := by
      rw [hφ]
      rfl
    refine ⟨_, rfl, ?_⟩
    cases w with
    | goes =>
      cases hact
      split
      · rename_i habsent
        refine h.same ⟨fun _ => ?_, nofun, nofun, nofun⟩ hplace.symm
        have hdest : s.dest = none := by simpa using habsent
        rcases h.dest with hsame | ⟨hnone, -⟩
        · exact hsame.symm.trans hdest
        · exact hnone
      · exact h.of_eq
    | raises =>
      cases hact
      exact h.of_eq
    | _ => cases hact
  | isDir p =>
    have hφ : φ i = .at p := hp
    have hplace : (φ i).place = p := by
      rw [hφ]
      rfl
    refine ⟨_, rfl, ?_⟩
    cases w with
    | goes =>
      cases hact
      split
      · rename_i hdir
        refine h.same ⟨nofun, fun name hname => (h.calls i).staging name (hplace.trans hname), ?_,
          nofun⟩ hplace.symm
        rintro p' done ⟨⟩
        cases hget : s.get p with
        | none =>
          rw [hget] at hdir
          cases hdir
        | some node =>
          cases node with
          | dir tree => exact ⟨tree, rfl, by simp⟩
          | other =>
            rw [hget] at hdir
            cases hdir
      · exact h.of_eq
    | raises =>
      cases hact
      exact h.of_eq
    | _ => cases hact
  | check p f => exact h.step_check hp hact
  | walk p => exact h.step_walk hp hact
  | say =>
    refine ⟨φ i, rfl, ?_⟩
    cases w with
    | goes => cases hact; exact h.of_eq
    | raises => cases hact; exact h.of_eq
    | _ => cases hact
  | prepare =>
    refine ⟨φ i, rfl, ?_⟩
    cases w with
    | free bytes => cases hact; exact h.of_eq
    | raises => cases hact; exact h.of_eq
    | _ => cases hact
  | openUrl path =>
    refine ⟨φ i, rfl, ?_⟩
    cases w with
    | length n => cases hact; exact h.of_eq
    | raises => cases hact; exact h.of_eq
    | _ => cases hact
  | read =>
    refine ⟨φ i, rfl, ?_⟩
    cases w with
    | chunk bytes => cases hact; exact h.of_eq
    | raises => cases hact; exact h.of_eq
    | _ => cases hact
  | close =>
    refine ⟨φ i, rfl, ?_⟩
    cases w with
    | goes => cases hact; exact h.of_eq
    | raises => cases hact; exact h.of_eq
    | _ => cases hact
  | draw =>
    obtain ⟨hφ, hfiles⟩ := hp
    refine ⟨_, rfl, ?_⟩
    cases w with
    | drawn name =>
      cases hact
      refine h.update (.inl rfl) (fun name' _ => ⟨rfl, List.mem_cons_of_mem _⟩)
        ⟨nofun, ?_, nofun, nofun⟩ ?_
      · rintro name' ⟨⟩
        exact ⟨(h.calls i).absent hφ, hfiles, List.mem_cons_self⟩
      · rintro name' ⟨⟩
        exact .inr hfresh
    | raises =>
      cases hact
      exact h.of_eq
    | _ => cases hact
  | rename name => exact h.step_rename hp hact
  | rmdir name =>
    have hφ : φ i = .at (.staging name) := hp
    have hplace : (φ i).place = .staging name := by
      rw [hφ]
      rfl
    have hrelease : ∀ t, OnlyAt name s t → PullInv env lock dest₀
        (Function.update φ i (.at .dest)) (t.release name) := by
      intro t ht
      refine h.update (.inl ht.dest) ?_ (.at_dest _) nofun
      intro name' hne
      have hne' : name' ≠ name := fun heq => hne (heq ▸ hplace)
      refine ⟨ht.staging name' hne', fun hmem => List.mem_filter.2 ⟨ht.owners ▸ hmem, ?_⟩⟩
      exact decide_eq_true hne'
    refine ⟨.at .dest, rfl, ?_⟩
    cases w with
    | goes =>
      cases hact
      exact hrelease _ (.rmdir name s)
    | raises =>
      cases hact
      exact hrelease _ (.refl name s)
    | _ => cases hact
  | makeStaging name =>
    have hφ : φ i = .at (.staging name) := hp
    refine ⟨φ i, rfl, ?_⟩
    rw [hφ]
    exact h.changed hφ (act_changes rfl hact)
  | makeParents name path =>
    have hφ : φ i = .at (.staging name) := hp
    refine ⟨φ i, rfl, ?_⟩
    rw [hφ]
    exact h.changed hφ (act_changes rfl hact)
  | create name path =>
    have hφ : φ i = .at (.staging name) := hp
    refine ⟨φ i, rfl, ?_⟩
    rw [hφ]
    exact h.changed hφ (act_changes rfl hact)
  | write name path bytes =>
    have hφ : φ i = .at (.staging name) := hp
    refine ⟨φ i, rfl, ?_⟩
    rw [hφ]
    exact h.changed hφ (act_changes rfl hact)
  | list name =>
    have hφ : φ i = .at (.staging name) := hp
    refine ⟨φ i, rfl, ?_⟩
    rw [hφ]
    exact h.changed hφ (act_changes rfl hact)
  | unlink name path =>
    have hφ : φ i = .at (.staging name) := hp
    refine ⟨φ i, rfl, ?_⟩
    rw [hφ]
    exact h.changed hφ (act_changes rfl hact)

/-! ## What stands in the cache -/

variable (env lock entry) in
/-- The calls before their first statement. -/
def pullers (opts : ι → PullOptions) (σ : Cache) : Pool Pulls ι Cache (Option Unit) :=
  ⟨fun i => (pullModel env lock entry (opts i)).run, σ⟩

/-- However calls for one entry interleave, each with any outcome: if no call draws a staging name
that another has drawn and not given back, a directory at the model's place passes `verify_dir`
unless it was there before, and a call returns only if one stands there that passes. -/
theorem installed_is_verified {opts : ι → PullOptions} {σ : Cache}
    {c' : Pool Pulls ι Cache (Option Unit)} {es : List (ι × Choice)}
    (h : (pullers env lock entry opts σ).run (machine env lock) es = some c')
    (hfresh : (pullers env lock entry opts σ).Along (machine env lock) Fresh es) :
    (∀ node, c'.state.dest = some node → σ.dest = some node ∨ Verified env lock node) ∧
      ∀ i, c'.threads i = .ret (some ()) →
        ∃ node, c'.state.dest = some node ∧ Verified env lock node := by
  have hstart : PullInv env lock σ.dest (fun _ : ι => Phase.at .dest) σ :=
    ⟨.inl rfl, fun _ => .at_dest σ, nofun⟩
  obtain ⟨φ, hfollows, hinv⟩ := Pool.run_follows (P := pulling lock) (Q := fun _ => Returns)
    (I := PullInv env lock σ.dest)
    (fun φ i o w s r s' hI hp hG hact => PullInv.step hI hp hG hact) h hfresh
    (fun i => pullModel_follows (opts i)) hstart
  refine ⟨fun node hnode => ?_, fun i hi => ?_⟩
  · rcases hinv.dest with hsame | ⟨-, node', hnode', hverified⟩
    · exact .inl (hsame.symm.trans hnode)
    · rw [hnode] at hnode'
      cases hnode'
      exact .inr hverified
  · have hreturns := hfollows i
    rw [hi] at hreturns
    exact (hinv.calls i).passed .dest (hreturns rfl)

/-! ## One file, one byte -/

/-- The digest of the byte 1. -/
def sampleDigest : Str :=
  "4bf5122f344554c53bde2ebb8cd2b7e3d1600ad631c385a5d7cce23c7785459a".toList

def sampleEnv : PullEnv where
  sha256 _ := sampleDigest
  repr s := s
  checkLicence s := s = "MIT".toList
  repoIdFromUrl _ := some "o/r".toList
  isCommit s := s.length = 40
  lockDigest _ := []

def sampleEntry : Entry :=
  ⟨"m".toList, "MIT".toList, "MIT".toList, "lead".toList, "https://huggingface.co/o/r".toList,
    List.replicate 40 'a', []⟩

def sampleLock : Lock :=
  ⟨1, "m".toList, List.replicate 40 'a', "https://huggingface.co/o/r".toList,
    [⟨"f".toList, 1, sampleDigest, none⟩]⟩

/-- A call up to the rename: it draws "x", downloads the byte and verifies the directory. -/
def sampleDownload : List Choice :=
  [.goes, .goes, .free (1024 ^ 3), .drawn "x".toList, .goes, .goes, .length (some 1), .goes, .goes,
    .chunk [1], .goes, .chunk [], .goes, .goes, .goes, .goes]

/-- A call that draws "x" too, finds the directory there and removes the file in it. -/
def sampleRemoval : List Choice :=
  [.goes, .goes, .free (1024 ^ 3), .drawn "x".toList, .raises, .goes, .goes]

def samplePullers : Pool Pulls Bool Cache (Option Unit) :=
  pullers sampleEnv sampleLock sampleEntry (fun _ => ⟨false, true⟩) ⟨none, fun _ => none, []⟩

/-- The state has a directory at the model's place that passes, or one that does not. -/
def installed (passes : Bool) (c : Pool Pulls Bool Cache (Option Unit)) : Bool :=
  match c.state.dest with
  | some node => decide (Verified sampleEnv sampleLock node) == passes
  | none => false

theorem installed_is_verified_alone :
    ∃ c', samplePullers.run (machine sampleEnv sampleLock)
        ((sampleDownload ++ [Choice.goes]).map fun w => (true, w)) = some c' ∧
      installed true c' = true ∧ ∀ node, c'.state.dest = some node →
        samplePullers.state.dest = some node ∨ Verified sampleEnv sampleLock node := by
  obtain ⟨c', hrun, hinstalled⟩ := Pool.exists_run_of_reaches samplePullers
    ((sampleDownload ++ [Choice.goes]).map fun w => (true, w)) (installed true)
    (M := machine sampleEnv sampleLock) (by decide)
  refine ⟨c', hrun, hinstalled, (installed_is_verified hrun ?_).1⟩
  apply Pool.along_of_check (fun _ o w s => match o, w with
    | .draw, .drawn name => name ∉ s.owners
    | _, _ => true)
  · intro i o w s htest
    unfold Fresh
    split
    · simpa using htest
    · trivial
  · decide

/-- Two calls that draw one name: the second removes the file that the first has verified, and the
first installs what is left. -/
theorem drawn_twice_installs_unverified :
    ∃ c', samplePullers.run (machine sampleEnv sampleLock)
        (sampleDownload.map (fun w => (true, w)) ++ sampleRemoval.map (fun w => (false, w)) ++
          [(true, .goes)]) = some c' ∧
      samplePullers.state.dest = none ∧ installed false c' = true := by
  obtain ⟨c', hrun, hinstalled⟩ := Pool.exists_run_of_reaches samplePullers
    (sampleDownload.map (fun w => (true, w)) ++ sampleRemoval.map (fun w => (false, w)) ++
      [(true, .goes)]) (installed false) (M := machine sampleEnv sampleLock) (by decide)
  exact ⟨c', hrun, rfl, hinstalled⟩

end RagLeap.Voice
