import Mathlib.Data.Char
import Mathlib.Data.List.Lex
import RagLeap.Foundations.Separated
import RagLeap.Foundations.Text
import RagLeap.Foundations.Utf8

/-!
# Composite keys

A node or an edge of the graph is merged by one key, the digest of the texts that identify it joined
with null characters. `liveKey` is the key of each write of an upsert, and `backfillKey` the one
that the migrations compute for what was stored before there were keys.

`key_correct_iff`: the backfill always computes the key of the write, and that key is the key of no
other tuple, collisions of the digest apart, just when none of the texts holds a null character.
-/

namespace RagLeap.Graph.CompositeKey

open PyStr (encodeUtf8)

/-! ## The code -/

def NUL : Char := '\x00'

/-- `"\x00".join(parts).encode("utf-8")`. -/
def joined (parts : List Str) : List UInt8 := encodeUtf8 (text ([NUL].intercalate parts))

/-- `_composite_key`; `sha256` gives the digest in hexadecimal digits. -/
def compositeKey (sha256 : List UInt8 → Str) (parts : List Str) : Str := sha256 (joined parts)

/-- `value or ""`. -/
def orEmpty (value : Option Str) : Str := value.getD []

/-- `sorted((a, b))`. -/
def sortedPair (a b : Str) : Str × Str := if b < a then (b, a) else (a, b)

/-- For what an upsert is called. -/
structure Call where
  documentId : Str
  ns : Option Str
  uid : Option Str

/-- The writes of an upsert that merge by a key. Entities and relations have the names that the
extraction found; the two edges are written for the lower case names of the records. -/
inductive Write
  | document
  | entity (name : Str)
  | pairWeight (a b : Str)
  | relationWeight (subject relationType object : Str)
  | coOccursWith (a b : Str)
  | relatesAs (subject relationType object : Str)

/-- The texts that identify what is written, in the order of the key. -/
def Write.parts (unicode : Unicode) (call : Call) : Write → List Str
  | .document => [orEmpty call.ns, orEmpty call.uid, call.documentId]
  | .entity name => [orEmpty call.ns, orEmpty call.uid, unicode.lower name]
  | .pairWeight a b =>
    [orEmpty call.ns, orEmpty call.uid, call.documentId, unicode.lower a, unicode.lower b]
  | .relationWeight subject relationType object =>
    [orEmpty call.ns, orEmpty call.uid, call.documentId, unicode.lower subject, relationType,
      unicode.lower object]
  | .coOccursWith a b =>
    [orEmpty call.ns, orEmpty call.uid, (sortedPair a b).1, (sortedPair a b).2]
  | .relatesAs subject relationType object =>
    [orEmpty call.ns, orEmpty call.uid, subject, relationType, object]

def liveKey (sha256 : List UInt8 → Str) (unicode : Unicode) (call : Call) (w : Write) : Str :=
  compositeKey sha256 (w.parts unicode call)

/-- What a backfill reads of a node or an edge: an edge has the names of its two ends. -/
inductive Properties
  | document (id : Option Str)
  | entity (name : Option Str)
  | pairWeight (documentId entityA entityB : Option Str)
  | relationWeight (documentId subject relationType object : Option Str)
  | coOccursWith (a b : Option Str)

/-- The texts a key is made of besides the namespace and the user. -/
def Properties.texts : Properties → List Str
  | .document id => [orEmpty id]
  | .entity name => [orEmpty name]
  | .pairWeight documentId entityA entityB =>
    [orEmpty documentId, orEmpty entityA, orEmpty entityB]
  | .relationWeight documentId subject relationType object =>
    [orEmpty documentId, orEmpty subject, orEmpty relationType, orEmpty object]
  | .coOccursWith a b =>
    let canon := sortedPair (orEmpty a) (orEmpty b)
    [canon.1, canon.2]

structure Item where
  ns : Option Str
  uid : Option Str
  properties : Properties
  compositeKey : Option Str

/-- The `key_fn` of a label, and the key of an edge. -/
def backfillKey (sha256 : List UInt8 → Str) (item : Item) : Str :=
  compositeKey sha256 (orEmpty item.ns :: orEmpty item.uid :: item.properties.texts)

/-- The items a backfill selects: those without a key, of one namespace if it is called for one. -/
def selects (ns : Option Str) (item : Item) : Bool :=
  item.compositeKey.isNone && ns.all fun ns => item.ns = some ns

/-- `_backfill_composite_key_session` and `backfill_co_occurs_with_composite_key`. -/
def backfill (sha256 : List UInt8 → Str) (ns : Option Str) (items : List Item) : List Item :=
  items.map fun item =>
    if selects ns item then { item with compositeKey := some (backfillKey sha256 item) } else item

/-! ## What an upsert stores -/

/-- A property has a value, or was never set and the value is empty. -/
def Holds (property : Option Str) (value : Str) : Prop := orEmpty property = value

/-- The properties a write leaves. An edge between two entities has either of them at its start, and
an item from before there were users has no `user_id`. -/
inductive Stores (unicode : Unicode) (call : Call) : Write → Properties → Prop
  | document {id : Option Str} (h : Holds id call.documentId) :
      Stores unicode call .document (.document id)
  | entity {name : Str} {stored : Option Str} (h : Holds stored (unicode.lower name)) :
      Stores unicode call (.entity name) (.entity stored)
  | pairWeight {a b : Str} {id a' b' : Option Str} (hid : Holds id call.documentId)
      (ha : Holds a' (unicode.lower a)) (hb : Holds b' (unicode.lower b)) :
      Stores unicode call (.pairWeight a b) (.pairWeight id a' b')
  | relationWeight {s t o : Str} {id s' t' o' : Option Str} (hid : Holds id call.documentId)
      (hs : Holds s' (unicode.lower s)) (ht : Holds t' t) (ho : Holds o' (unicode.lower o)) :
      Stores unicode call (.relationWeight s t o) (.relationWeight id s' t' o')
  | coOccursWith {a b : Str} {a' b' : Option Str} (ha : Holds a' a) (hb : Holds b' b) :
      Stores unicode call (.coOccursWith a b) (.coOccursWith a' b')
  | coOccursWith_reversed {a b : Str} {a' b' : Option Str} (ha : Holds a' b) (hb : Holds b' a) :
      Stores unicode call (.coOccursWith a b) (.coOccursWith a' b')

/-- An item with the data of a write. -/
structure Item.StoredBy (unicode : Unicode) (call : Call) (w : Write) (item : Item) : Prop where
  ns : Holds item.ns (orEmpty call.ns)
  uid : Holds item.uid (orEmpty call.uid)
  properties : Stores unicode call w item.properties

section

variable {sha256 : List UInt8 → Str} {unicode : Unicode} {call : Call} {w : Write}

theorem sortedPair_comm (a b : Str) : sortedPair a b = sortedPair b a := by
  rw [sortedPair, sortedPair]
  rcases lt_trichotomy a b with h | rfl | h
  · rw [if_neg h.asymm, if_pos h]
  · rfl
  · rw [if_pos h, if_neg h.asymm]

theorem texts_of_stores {properties : Properties} (h : Stores unicode call w properties) :
    w.parts unicode call = orEmpty call.ns :: orEmpty call.uid :: properties.texts := by
  cases h with
  | document h => rw [Properties.texts, h]; rfl
  | entity h => rw [Properties.texts, h]; rfl
  | pairWeight hid ha hb => rw [Properties.texts, hid, ha, hb]; rfl
  | relationWeight hid hs ht ho => rw [Properties.texts, hid, hs, ht, ho]; rfl
  | coOccursWith ha hb => rw [Properties.texts, ha, hb]; rfl
  | coOccursWith_reversed ha hb => rw [Properties.texts, ha, hb, sortedPair_comm]; rfl

/-- A backfilled key is the one a live write uses. -/
theorem backfillKey_eq_liveKey {item : Item} (h : item.StoredBy unicode call w) :
    backfillKey sha256 item = liveKey sha256 unicode call w := by
  rw [backfillKey, liveKey, texts_of_stores h.properties, h.ns, h.uid]

/-- After a backfill an item it selected has the key of the write it comes from. -/
theorem mem_backfill {ns : Option Str} {items : List Item} {item : Item} (hmem : item ∈ items)
    (hselects : selects ns item = true) (h : item.StoredBy unicode call w) :
    { item with compositeKey := some (liveKey sha256 unicode call w) } ∈
      backfill sha256 ns items := by
  refine List.mem_map.2 ⟨item, hmem, ?_⟩
  rw [if_pos hselects, backfillKey_eq_liveKey h]

/-- A backfill finds nothing to do after another. -/
theorem backfill_backfill (ns : Option Str) (items : List Item) :
    backfill sha256 ns (backfill sha256 ns items) = backfill sha256 ns items := by
  rw [backfill, backfill, List.map_map]
  refine List.map_congr_left fun item _ => ?_
  rw [Function.comp_apply]
  by_cases h : selects ns item = true
  · rw [if_pos h, if_neg (by simp [selects])]
  · rw [if_neg h, if_neg h]

/-! ## What a key identifies -/

/-- Two different inputs of one digest. -/
def Collides (sha256 : List UInt8 → Str) (b b' : List UInt8) : Prop := b ≠ b' ∧ sha256 b = sha256 b'

/-- The key of a tuple is the key of no other tuple of as many texts, unless the digest collides. -/
def Identifies (sha256 : List UInt8 → Str) (parts : List Str) : Prop :=
  ∀ parts' : List Str, parts'.length = parts.length →
    compositeKey sha256 parts' = compositeKey sha256 parts →
    parts' = parts ∨ Collides sha256 (joined parts') (joined parts)

theorem joined_eq_iff {parts parts' : List Str} :
    joined parts = joined parts' ↔ [NUL].intercalate parts = [NUL].intercalate parts' := by
  refine ⟨fun h => ?_, fun h => by rw [joined, joined, h]⟩
  have hread : ∀ s : Str, PyStr.decodeUtf8 (encodeUtf8 (text s)) = some (text s) := by
    intro s
    refine PyStr.decodeUtf8_encodeUtf8 fun c hc => ?_
    obtain ⟨c, -, rfl⟩ := List.mem_map.1 hc
    exact PyStr.isSurrogate_ch c
  have hmap := Option.some.inj ((hread _).symm.trans ((congrArg _ h).trans (hread _)))
  refine List.map_injective_iff.2 (fun c c' hc => ?_) hmap
  have hval : c.val.toNat = c'.val.toNat := congrArg (fun p : CodePoint => p.val) hc
  exact Char.ext (UInt32.toNat_inj.1 hval)

theorem identifies_iff {parts : List Str} (hlength : 2 ≤ parts.length) :
    Identifies sha256 parts ↔ ∀ s ∈ parts, NUL ∉ s := by
  rw [← joins_uniquely_iff hlength]
  constructor
  · intro h parts' hlength' heq
    have hjoined := joined_eq_iff.2 heq
    exact (h parts' hlength' (congrArg sha256 hjoined)).resolve_right fun hc => hc.1 hjoined
  · intro h parts' hlength' hkey
    by_cases hjoined : joined parts' = joined parts
    · exact .inl (h parts' hlength' (joined_eq_iff.1 hjoined))
    · exact .inr ⟨hjoined, hkey⟩

theorem two_le_length_parts (unicode : Unicode) (call : Call) (w : Write) :
    2 ≤ (w.parts unicode call).length := by
  cases w <;> simp [Write.parts]

/-- The key a write uses identifies the tuple of its texts, and the backfill computes the same for
whatever stores the data of the write, just when none of the texts holds a null character. -/
theorem key_correct_iff (sha256 : List UInt8 → Str) (unicode : Unicode) (call : Call) (w : Write) :
    (Identifies sha256 (w.parts unicode call) ∧
        ∀ item : Item, item.StoredBy unicode call w →
          backfillKey sha256 item = liveKey sha256 unicode call w) ↔
      ∀ s ∈ w.parts unicode call, NUL ∉ s := by
  rw [identifies_iff (two_le_length_parts unicode call w)]
  exact and_iff_left fun _ => backfillKey_eq_liveKey

end

namespace Sample

/-- One user with a null character in the name of a namespace, another with one in its own. -/
def call : Call := ⟨"report".toList, some "a\x00b".toList, some "c".toList⟩

def other : Call := ⟨"report".toList, some "a".toList, some "b\x00c".toList⟩

/-- Two documents, of other namespaces and other users, have one key, whatever the digest. -/
theorem null_character_merges :
    Write.document.parts .ascii other ≠ Write.document.parts .ascii call ∧
      (fun sha256 => liveKey sha256 .ascii other .document) =
        fun sha256 => liveKey sha256 .ascii call .document := by
  refine ⟨by decide, ?_⟩
  funext sha256
  exact congrArg sha256 (joined_eq_iff.2 (by decide))

end Sample

end RagLeap.Graph.CompositeKey
