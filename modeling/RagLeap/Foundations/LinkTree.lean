import Mathlib.Data.List.Infix
import Mathlib.Logic.Function.Basic
import Mathlib.Tactic.Common

/-!
# File trees with symbolic links

A tree of directories, links and other nodes, and two ways to resolve a path in it.

* `walk` is the kernel's: it goes from component to component, takes `..` from where it stands,
  and follows at most a given number of links.
* `joinReal` is `posixpath._joinrealpath` of the standard library, not strict: it resolves links
  one by one and keeps what it knows in `seen`. On a link that leads back to itself it gives up
  and returns the text that is left, unresolved; `realpath` then normalises that text without
  looking at the tree.

`Plain` paths have no link on the way. Where `joinReal` does not give up, its result is plain
(`plain_of_realpath`), and the kernel walks a plain path to itself or not at all (`openPath_plain`).

A path text is the list of its components between slashes, so a text with a leading slash starts
with an empty component and goes on.
-/

namespace RagLeap

namespace LinkTree

/-- A component of a path text. -/
inductive Comp (N : Type)
  | empty
  | dot
  | up
  | name (n : N)
  deriving DecidableEq

/-- A tree: directories carry a `D`, and what is neither a directory nor a link an `A`. -/
inductive Node (N D A : Type)
  | dir (d : D) (entries : List (N × Node N D A))
  | link (target : List (Comp N))
  | leaf (a : A)

variable {N D A : Type} [DecidableEq N]

/-- The node at a path of names, no link followed. -/
def lookup : Node N D A → List N → Option (Node N D A)
  | t, [] => some t
  | .dir _ entries, n :: p => (entries.find? fun e => e.1 = n).bind fun e => lookup e.2 p
  | _, _ :: _ => none

/-- The text starts with a slash. -/
def isAbs : List (Comp N) → Bool
  | .empty :: _ :: _ => true
  | _ => false

/-! ## The kernel -/

/-- The components of a path from where the walk stands; `follow` goes on behind a link. -/
def walkWith (root : Node N D A) (follow : List N → List (Comp N) → Option (List N)) :
    List N → List (Comp N) → Option (List N)
  | here, [] => some here
  | here, .empty :: rest => walkWith root follow here rest
  | here, .dot :: rest => walkWith root follow here rest
  | here, .up :: rest => walkWith root follow here.dropLast rest
  | here, .name n :: rest =>
    match lookup root (here ++ [n]) with
    | none => none
    | some (.link target) => follow (if isAbs target then [] else here) (target ++ rest)
    | some (.dir _ _) => walkWith root follow (here ++ [n]) rest
    | some (.leaf _) => if rest = [] then some (here ++ [n]) else none

/-- The path a walk ends at, with `links` links left to follow. -/
def walk (root : Node N D A) : ℕ → List N → List (Comp N) → Option (List N)
  | 0 => walkWith root fun _ _ => none
  | links + 1 => walkWith root (walk root links)

/-- The links the kernel follows in one path. -/
def maxLinks : ℕ := 40

/-- The path the kernel opens for a path of names from the root. -/
def openPath (root : Node N D A) (p : List N) : Option (List N) :=
  walk root maxLinks [] (p.map .name)

/-- `os.lstat` of an entry: the way to it is walked, the entry itself is not followed. -/
def lstat (root : Node N D A) (path : List N) (n : N) : Option (Node N D A) :=
  (openPath root path).bind fun dir => lookup root (dir ++ [n])

/-! ## `os.path.realpath` -/

/-- What `_joinrealpath` returns: a resolved path, or a text it gave up on. -/
inductive Real (N : Type)
  | path (p : List N)
  | stuck (text : List (Comp N))

/-- The links met so far: still being resolved, or resolved to a path. -/
abbrev Seen (N : Type) : Type := List N → Option (Option (List N))

/-- The text of a path other than the root. -/
def textOf (p : List N) : List (Comp N) := .empty :: p.map .name

/-- `os.path.join`; an empty list is the empty text. -/
def joinText (a b : List (Comp N)) : List (Comp N) :=
  if isAbs b then b
  else if a.getLast? = some .empty then a.dropLast ++ b
  else a ++ b

/-- The loop of `_joinrealpath`; `enter` is the call for the target of a link. -/
def joinWith (root : Node N D A)
    (enter : Seen N → List N → List (Comp N) → Option (Real N × Seen N)) :
    Seen N → List N → List (Comp N) → Option (Real N × Seen N)
  | seen, path, [] => some (.path path, seen)
  | seen, path, .empty :: rest => joinWith root enter seen path rest
  | seen, path, .dot :: rest => joinWith root enter seen path rest
  | seen, path, .up :: rest => joinWith root enter seen path.dropLast rest
  | seen, path, .name n :: rest =>
    match lstat root path n with
    | some (.link target) =>
      match seen (path ++ [n]) with
      | some (some p) => joinWith root enter seen p rest
      -- the link is being resolved further up: a loop
      | some none => some (.stuck (joinText (textOf (path ++ [n])) rest), seen)
      | none =>
        match enter (Function.update seen (path ++ [n]) (some none)) path target with
        | none => none
        | some (.path p, seen) =>
          joinWith root enter (Function.update seen (path ++ [n]) (some (some p))) p rest
        | some (.stuck text, seen) => some (.stuck (joinText text rest), seen)
    | _ => joinWith root enter seen (path ++ [n]) rest

/-- `_joinrealpath`; none where the calls are nested deeper than `depth` (`RecursionError`). -/
def joinReal (root : Node N D A) :
    ℕ → Seen N → List N → List (Comp N) → Option (Real N × Seen N)
  | 0, _, _, _ => none
  | depth + 1, seen, path, rest =>
    if isAbs rest then joinWith root (joinReal root depth) seen [] rest.tail
    else joinWith root (joinReal root depth) seen path rest

/-- One component of `posixpath.normpath`, on a text with a leading slash. -/
def normStep (path : List N) : Comp N → List N
  | .empty | .dot => path
  | .up => path.dropLast
  | .name n => path ++ [n]

/-- A normalised absolute path: its names, and whether its text starts with two slashes. -/
structure AbsPath (N : Type) where
  double : Bool
  names : List N
  deriving DecidableEq

/-- The text starts with exactly two slashes, which `posixpath.normpath` keeps. -/
def startsDouble : List (Comp N) → Bool
  | [.empty, .empty, .empty] => true
  | .empty :: .empty :: .empty :: _ => false
  | .empty :: .empty :: _ :: _ => true
  | _ => false

/-- `os.path.realpath` of an absolute text, which ends with `abspath`. -/
def realpath (root : Node N D A) (depth : ℕ) (text : List (Comp N)) : Option (AbsPath N) :=
  match joinReal root depth (fun _ => none) [] text with
  | none => none
  | some (.path p, _) => some ⟨false, p⟩
  | some (.stuck text, _) => some ⟨startsDouble text, text.foldl normStep []⟩

/-- The resolution gives up on a loop of links. -/
def meetsLoop (root : Node N D A) (depth : ℕ) (text : List (Comp N)) : Bool :=
  match joinReal root depth (fun _ => none) [] text with
  | some (.stuck _, _) => true
  | _ => false

/-! ## Plain paths -/

theorem lookup_append (t : Node N D A) (p q : List N) :
    lookup t (p ++ q) = (lookup t p).bind (lookup · q) := by
  induction p generalizing t with
  | nil => rfl
  | cons n p ih =>
    cases t with
    | dir d entries =>
      simp only [List.cons_append, lookup, ih]
      cases entries.find? fun e => e.1 = n <;> rfl
    | link target => rfl
    | leaf a => rfl

/-- What has something below it is a directory. -/
theorem isDir_of_lookup_append {t u : Node N D A} {p : List N} {n : N}
    (h : lookup t (p ++ [n]) = some u) : ∃ d entries, lookup t p = some (.dir d entries) := by
  rw [lookup_append] at h
  obtain ⟨v, hv, hu⟩ := Option.bind_eq_some_iff.1 h
  cases v with
  | dir d entries => exact ⟨d, entries, hv⟩
  | link target => exact nomatch hu
  | leaf a => exact nomatch hu

/-- No prefix of the path is a link. -/
def Plain (root : Node N D A) (p : List N) : Prop :=
  ∀ q, q <+: p → ∀ target, lookup root q ≠ some (.link target)

theorem Plain.isPrefix {root : Node N D A} {p q : List N} (h : Plain root p) (hq : q <+: p) :
    Plain root q := fun _ hr => h _ (hr.trans hq)

theorem Plain.dropLast {root : Node N D A} {p : List N} (h : Plain root p) :
    Plain root p.dropLast := h.isPrefix (List.dropLast_prefix p)

theorem Plain.concat {root : Node N D A} {p : List N} {n : N} (h : Plain root p)
    (hn : ∀ target, lookup root (p ++ [n]) ≠ some (.link target)) : Plain root (p ++ [n]) := by
  intro q hq target
  rcases List.prefix_concat_iff.1 hq with rfl | hq
  · exact hn target
  · exact h q hq target

theorem walkWith_plain {root : Node N D A} {follow : List N → List (Comp N) → Option (List N)}
    (here : List N) {p : List N} (h : Plain root (here ++ p)) {q : List N}
    (hq : walkWith root follow here (p.map .name) = some q) : q = here ++ p := by
  induction p generalizing here with
  | nil =>
    rw [List.map_nil, walkWith, Option.some.injEq] at hq
    simp [hq]
  | cons n p ih =>
    have hassoc : here ++ n :: p = here ++ [n] ++ p := by simp
    rw [List.map_cons, walkWith] at hq
    rw [hassoc] at h ⊢
    split at hq
    case h_1 => exact nomatch hq
    case h_2 target heq => exact absurd heq (h _ (List.prefix_append _ _) target)
    case h_3 => exact ih _ h hq
    case h_4 =>
      split at hq
      case isTrue hp =>
        rw [List.map_eq_nil_iff] at hp
        rw [hp, List.append_nil]
        exact (Option.some.inj hq).symm
      case isFalse => exact nomatch hq

/-- **The kernel walks a plain path to itself or not at all.** -/
theorem openPath_plain {root : Node N D A} {p q : List N} (h : Plain root p)
    (hq : openPath root p = some q) : q = p :=
  walkWith_plain [] h hq

theorem walkWith_of_lookup {root : Node N D A}
    {follow : List N → List (Comp N) → Option (List N)} (here : List N) {p : List N}
    (h : Plain root (here ++ p)) {u : Node N D A} (hu : lookup root (here ++ p) = some u) :
    walkWith root follow here (p.map .name) = some (here ++ p) := by
  induction p generalizing here with
  | nil => simp [walkWith]
  | cons n p ih =>
    have hassoc : here ++ n :: p = here ++ [n] ++ p := by simp
    rw [hassoc] at h hu ⊢
    have hnext := ih _ h hu
    have hlink := h _ (List.prefix_append (here ++ [n]) p)
    rw [lookup_append] at hu
    obtain ⟨v, hv, hrest⟩ := Option.bind_eq_some_iff.1 hu
    rw [List.map_cons, walkWith, hv]
    cases v with
    | dir d entries => exact hnext
    | link target => exact absurd hv (hlink target)
    | leaf a =>
      -- nothing is below a node that is no directory
      cases p with
      | nil => simp
      | cons m p => exact nomatch hrest

/-- The kernel reaches what is at a plain path. -/
theorem openPath_of_lookup {root : Node N D A} {p : List N} (h : Plain root p)
    {u : Node N D A} (hu : lookup root p = some u) : openPath root p = some p :=
  walkWith_of_lookup [] h hu

/-- An entry behind a plain path that is no link to `lstat` keeps the path plain. -/
theorem Plain.of_lstat {root : Node N D A} {p : List N} {n : N} (h : Plain root p)
    (hn : ∀ target, lstat root p n ≠ some (.link target)) : Plain root (p ++ [n]) := by
  apply h.concat
  intro target heq
  obtain ⟨d, entries, hp⟩ := isDir_of_lookup_append heq
  apply hn target
  rw [lstat, openPath_of_lookup h hp]
  exact heq

/-! ## What `realpath` resolves -/

/-- Every link known to be resolved was resolved to a plain path. -/
def PlainSeen (root : Node N D A) (seen : Seen N) : Prop :=
  ∀ q p, seen q = some (some p) → Plain root p

theorem PlainSeen.update {root : Node N D A} {seen : Seen N} (h : PlainSeen root seen)
    {q : List N} {r : Option (List N)} (hr : ∀ p, r = some p → Plain root p) :
    PlainSeen root (Function.update seen q (some r)) := by
  intro q' p hp
  rw [Function.update_apply] at hp
  split at hp
  · exact hr p (Option.some.inj hp)
  · exact h q' p hp

/-- What a call of `_joinrealpath` keeps: a path it returns, and what it has seen, are plain. -/
def KeepsPlain (root : Node N D A)
    (enter : Seen N → List N → List (Comp N) → Option (Real N × Seen N)) : Prop :=
  ∀ seen path rest p seen', Plain root path → PlainSeen root seen →
    enter seen path rest = some (.path p, seen') → Plain root p ∧ PlainSeen root seen'

theorem KeepsPlain.joinWith {root : Node N D A}
    {enter : Seen N → List N → List (Comp N) → Option (Real N × Seen N)}
    (h : KeepsPlain root enter) : KeepsPlain root (joinWith root enter) := by
  intro seen path rest p seen' hpath hseen heq
  induction rest generalizing seen path with
  | nil =>
    rw [LinkTree.joinWith, Option.some.injEq, Prod.mk.injEq, Real.path.injEq] at heq
    obtain ⟨rfl, rfl⟩ := heq
    exact ⟨hpath, hseen⟩
  | cons c rest ih =>
    cases c with
    | empty => exact ih seen path hpath hseen heq
    | dot => exact ih seen path hpath hseen heq
    | up => exact ih seen path.dropLast hpath.dropLast hseen heq
    | name n =>
      rw [LinkTree.joinWith] at heq
      split at heq
      case h_1 target hlink =>
        split at heq
        case h_1 q hq => exact ih seen q (hseen _ q hq) hseen heq
        case h_2 => exact nomatch heq
        case h_3 =>
          split at heq
          case h_1 => exact nomatch heq
          case h_2 q seen₁ hcall =>
            have hmark := hseen.update (q := path ++ [n]) (r := none) fun _ hp => nomatch hp
            obtain ⟨hq, hseen₁⟩ := h _ _ _ _ _ hpath hmark hcall
            have hkeep := hseen₁.update (q := path ++ [n]) (r := some q) fun _ hp =>
              Option.some.inj hp ▸ hq
            exact ih _ q hq hkeep heq
          case h_3 => exact nomatch heq
      case h_2 hlink =>
        exact ih seen (path ++ [n]) (hpath.of_lstat hlink) hseen heq

/-- Where the root is no link, every call keeps paths plain. -/
theorem keepsPlain_joinReal {root : Node N D A} (hroot : Plain root []) (depth : ℕ) :
    KeepsPlain root (joinReal root depth) := by
  induction depth with
  | zero => exact fun _ _ _ _ _ _ _ h => nomatch h
  | succ depth ih =>
    intro seen path rest p seen' hpath hseen heq
    rw [joinReal] at heq
    split at heq
    · exact ih.joinWith _ _ _ _ _ hroot hseen heq
    · exact ih.joinWith _ _ _ _ _ hpath hseen heq

/-- **A resolution that meets no loop ends at a plain path.** -/
theorem plain_of_realpath {root : Node N D A} (hroot : Plain root []) {depth : ℕ}
    {text : List (Comp N)} {r : AbsPath N} (h : realpath root depth text = some r)
    (hloop : meetsLoop root depth text = false) : r.double = false ∧ Plain root r.names := by
  unfold realpath at h
  unfold meetsLoop at hloop
  split at h
  case h_1 => exact nomatch h
  case h_2 p seen heq =>
    obtain rfl := Option.some.inj h
    have hnone : PlainSeen root fun _ => none := fun _ _ hp => nomatch hp
    exact ⟨rfl, (keepsPlain_joinReal hroot depth _ _ _ _ _ hroot hnone heq).1⟩
  case h_3 text' seen heq =>
    rw [heq] at hloop
    exact nomatch hloop

theorem joinWith_of_plain {root : Node N D A}
    {enter : Seen N → List N → List (Comp N) → Option (Real N × Seen N)} {seen : Seen N}
    (here : List N) {p : List N} (h : Plain root (here ++ p)) :
    joinWith root enter seen here (p.map .name) = some (.path (here ++ p), seen) := by
  induction p generalizing here with
  | nil => simp [joinWith]
  | cons n p ih =>
    have hassoc : here ++ n :: p = here ++ [n] ++ p := by simp
    rw [hassoc] at h ⊢
    have hhere : Plain root here := h.isPrefix ((List.prefix_append _ _).trans
      (List.prefix_append _ _))
    have hlink : ∀ target, lstat root here n ≠ some (.link target) := by
      intro target heq
      obtain ⟨dir, hdir, hnode⟩ := Option.bind_eq_some_iff.1 heq
      rw [openPath_plain hhere hdir] at hnode
      exact h _ (List.prefix_append _ _) target hnode
    rw [List.map_cons, joinWith]
    split
    case h_1 target heq => exact absurd heq (hlink target)
    case h_2 => exact ih _ h

/-- A plain path is resolved to itself. -/
theorem realpath_of_plain {root : Node N D A} {depth : ℕ} (hdepth : 0 < depth) {p : List N}
    (hne : p ≠ []) (h : Plain root p) : realpath root depth (textOf p) = some ⟨false, p⟩ := by
  obtain ⟨depth, rfl⟩ := Nat.exists_eq_succ_of_ne_zero hdepth.ne'
  obtain ⟨n, p, rfl⟩ := List.exists_cons_of_ne_nil hne
  have habs : isAbs (textOf (n :: p)) = true := rfl
  rw [realpath, joinReal, if_pos habs]
  dsimp only [textOf, List.tail_cons]
  rw [joinWith_of_plain [] h]
  rfl

end LinkTree

end RagLeap
