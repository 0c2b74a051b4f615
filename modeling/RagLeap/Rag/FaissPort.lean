import Mathlib.Data.List.Perm.Subperm
import RagLeap.Foundations.BigEndian
import RagLeap.Foundations.Dict
import RagLeap.Foundations.Durable
import RagLeap.Rag.FaissBackend

/-!
# The Java FAISS backend over crashes

The Java `FaissBackend` keeps its vectors in a map, its rows in SQLite, where every statement is
committed on its own, and writes the whole map over the index file after every change. A process
may die at any statement and after any byte of the file; the next one opens the directory and reads
the file back.

`reopens_iff` says in which runs the directory can always be opened again, with the ids of the table
in memory.
-/

namespace RagLeap.Rag.FaissPort

open BigEndian Steps

/-- The bits of a float. -/
abbrev Vec : Type := List UInt32

/-- A vector under its id. A `long` is read as its bits. -/
abbrev Entry : Type := ℕ × Vec

/-- `dimensions` and `vectors`. -/
structure Memory where
  dimensions : BitVec 32
  vectors : Dict ℕ Vec

/-- `vectors.put(vid, v)`. -/
def Memory.put (m : Memory) (vid : ℕ) (v : Vec) : Memory :=
  { m with vectors := m.vectors.set vid v }

/-- `vectors.remove(vid)` for all of the ids. -/
def Memory.remove (m : Memory) (vids : List ℕ) : Memory :=
  { m with vectors := m.vectors.filter fun vid _ => vid ∉ vids }

/-- The database and the index file. -/
structure Disk where
  database : Faiss.Database
  index : Option (List UInt8)

/-- `Long.MAX_VALUE`, the last row id of SQLite. -/
def MAX_VID : ℕ := 2 ^ 63 - 1

/-! ## Statements -/

inductive Op
  | insertDocument (row : DocumentRow)
  | insertChunk (chunk : NewChunk Unit)
  | selectVids (documentId : Str)
  | deleteDocument (documentId : Str)
  | deleteChunks (documentId : Str)
  | openIndex
  | write (b : UInt8)

/-- What SQLite and the file answer; an insertion may be refused. -/
abbrev Statements : Signature where
  Op := Op
  Res
    | .insertDocument _ => Bool
    | .insertChunk _ => Option ℕ
    | .selectVids _ => List ℕ
    | .deleteDocument _ => ℕ
    | .deleteChunks _ | .openIndex | .write _ => Unit

def stmt (o : Op) : Prog Statements (Statements.Res o) := .op o .ret

/-- What a statement does to the disk. Opening the file for writing empties it. -/
def act (o : Op) (disk : Disk) : Statements.Res o × Disk :=
  match o with
  | .insertDocument row =>
    match disk.database.insertDocument row with
    | none => (false, disk)
    | some database => (true, { disk with database })
  | .insertChunk chunk =>
    if disk.database.lastVid = MAX_VID then (none, disk)
    else
      (some (disk.database.lastVid + 1),
        { disk with database := disk.database.insertChunk chunk.documentId chunk.documentName
                      chunk.chunkIndex chunk.text chunk.tokenCount chunk.metadata })
  | .selectVids documentId => (disk.database.vidsOf documentId, disk)
  | .deleteDocument documentId =>
    (disk.database.documents.countP (·.id = documentId),
      { disk with database := disk.database.deleteDocument documentId })
  | .deleteChunks documentId =>
    ((), { disk with database := disk.database.deleteChunks documentId })
  | .openIndex => ((), { disk with index := some [] })
  | .write b => ((), { disk with index := disk.index.map (· ++ [b]) })

/-! ## The index file -/

def encodeEntry (e : Entry) : List UInt8 :=
  toBytes 8 e.1 ++ e.2.flatMap fun bits => toBytes 4 bits.toNat

/-- The bytes of an index file. -/
def encodeIndex (dimensions : BitVec 32) (entries : List Entry) : List UInt8 :=
  toBytes 4 dimensions.toNat ++ entries.flatMap encodeEntry

/-- The loop of `loadIndex`; `none` where a vector breaks off, and for a negative dimension. A file
may end inside an id. -/
def loadEntries (dim : BitVec 32) (b : List UInt8) : Option (List Entry) :=
  if b.length < 8 then some []
  else if dim.toInt < 0 then none
  else if b.length < 8 + 4 * dim.toNat then none
  else
    let v := (List.range dim.toNat).map fun i =>
      UInt32.ofNat (ofBytes ((b.drop (8 + 4 * i)).take 4))
    (loadEntries dim (b.drop (8 + 4 * dim.toNat))).map ((ofBytes (b.take 8), v) :: ·)
termination_by b.length
decreasing_by
  rw [List.length_drop]
  omega

/-- `loadIndex`. -/
def loadIndex (file : List UInt8) : Option (BitVec 32 × List Entry) :=
  if file.length < 4 then none
  else
    let dim := BitVec.ofNat 32 (ofBytes (file.take 4))
    (loadEntries dim (file.drop 4)).map fun entries => (dim, entries)

/-- `initSchema` of a new object on the directory; `none` where it raises. -/
def initSchema (dimensions : BitVec 32) (disk : Disk) : Option Memory :=
  match disk.index with
  | none => some ⟨dimensions, .empty⟩
  | some file =>
    (loadIndex file).map fun r =>
      ⟨if 0 < r.1.toInt then r.1 else dimensions, .ofPairs r.2⟩

/-! ## The operations -/

/-- The order in which a `HashMap` lists its entries. -/
abbrev Order : Type := {f : List Entry → List Entry // ∀ entries, (f entries).Perm entries}

/-- `saveIndexIfPersistent`. -/
def saveIndex (order : Order) (m : Memory) : Prog Statements Unit := do
  stmt .openIndex
  Prog.forEach (fun b => stmt (.write b)) (encodeIndex m.dimensions (order.1 m.vectors.items))

variable {E : Type} (bits : List E → ℕ → UInt32)

/-- `normalize`; `none` where it raises, at a `null` among the numbers. `bits es i` are the bits of
number `i`, once divided by the norm. -/
def normalize (embedding : List (Option E)) : Option Vec :=
  (embedding.mapM id).map fun es => (List.range embedding.length).map (bits es)

/-- `insertDocument`: whether it returns. -/
def insertDocument (row : DocumentRow) : Prog Statements Bool := stmt (.insertDocument row)

/-- `insertChunk`: whether it returns, and the memory it leaves. -/
def insertChunk (order : Order) (chunk : NewChunk (List (Option E))) (m : Memory) :
    Prog Statements (Bool × Memory) :=
  if (chunk.embedding.length : ℤ) ≠ m.dimensions.toInt then pure (false, m)
  else do
    let vid ← stmt (.insertChunk { chunk with embedding := () })
    match vid, normalize bits chunk.embedding with
    | none, _ | some _, none => pure (false, m)
    | some vid, some v =>
      saveIndex order (m.put vid v)
      pure (true, m.put vid v)

/-- `deleteDocument`: its result, and the memory it leaves. -/
def deleteDocument (order : Order) (documentId : Str) (m : Memory) :
    Prog Statements (Bool × Memory) := do
  let vids ← stmt (.selectVids documentId)
  let deletedCount ← stmt (.deleteDocument documentId)
  stmt (.deleteChunks documentId)
  saveIndex order (m.remove vids)
  pure (0 < deletedCount, m.remove vids)

inductive Call (E : Type)
  | insertDocument (row : DocumentRow)
  | insertChunk (chunk : NewChunk (List (Option E)))
  | deleteDocument (documentId : Str)

/-- The memory a call leaves. -/
def Call.run (order : Order) (m : Memory) : Call E → Prog Statements Memory
  | .insertDocument row => do
    let _ ← FaissPort.insertDocument row
    pure m
  | .insertChunk chunk => do
    let r ← FaissPort.insertChunk bits order chunk m
    pure r.2
  | .deleteDocument documentId => do
    let r ← FaissPort.deleteDocument order documentId m
    pure r.2

/-! ## Runs -/

/-- A call, and, where the process dies in it, the number of statements that are done then, with
the dimension `initSchema` is called with after that. -/
structure Event (E : Type) where
  call : Call E
  order : Order
  crash : Option (ℕ × BitVec 32)

/-- The directory, and the memory of the process; there is none once `initSchema` has raised. -/
structure State where
  disk : Disk
  memory : Option Memory

def step (s : State) (e : Event E) : State :=
  match s.memory with
  | none => s
  | some m =>
    let p := e.call.run bits e.order m
    match e.crash with
    | none => ⟨(p.final act s.disk).2, some (p.final act s.disk).1⟩
    | some (n, dimensions) =>
      let disk := p.cutAt act n s.disk
      ⟨disk, initSchema dimensions disk⟩

/-- After `initSchema` on a new directory. -/
def State.opened (dimensions : BitVec 32) : State where
  disk := ⟨.empty, none⟩
  memory := some ⟨dimensions, .empty⟩

/-- The ids in memory are those of the table. -/
def Agrees (database : Faiss.Database) (m : Memory) : Prop :=
  ∀ vid, vid ∈ m.vectors.items.map Prod.fst ↔ vid ∈ database.chunks.map Faiss.ChunkRow.vid

/-- Opening the directory succeeds, with the ids of the table. -/
def Reopens (disk : Disk) : Prop :=
  ∀ dimensions, ∃ m, initSchema dimensions disk = some m ∧ Agrees disk.database m

/-- The ids agree, and will do so once the directory is opened again. -/
def Sound (s : State) : Prop := (∃ m, s.memory = some m ∧ Agrees s.disk.database m) ∧ Reopens s.disk

/-- The first `k` statements are done. -/
def Event.Done (e : Event E) (k : ℕ) : Prop := ∀ c ∈ e.crash, k ≤ c.1

/-- Each vector has the dimension. -/
def Uniform (dimensions : BitVec 32) (entries : List Entry) : Prop :=
  ∀ e ∈ entries, (e.2.length : ℤ) = dimensions.toInt

/-- The size of a file of that many vectors. -/
def fileSize (dimensions : BitVec 32) (count : ℕ) : ℕ :=
  4 + count * (8 + 4 * dimensions.toInt.toNat)

/-- The call stores nothing, or it has all numbers and vectors of one dimension to write, and the
process does not die between the first change to the table or the file and the last byte of the
file. `done k` says that the first `k` statements are done. -/
def Call.Meets (database : Faiss.Database) (m : Memory) (done : ℕ → Prop) : Call E → Prop
  | .insertDocument _ => True
  | .insertChunk chunk =>
    (chunk.embedding.length : ℤ) ≠ m.dimensions.toInt ∨ database.lastVid = MAX_VID ∨ ¬ done 1 ∨
      (none ∉ chunk.embedding ∧ Uniform m.dimensions m.vectors.items ∧
        done (2 + fileSize m.dimensions (m.vectors.items.length + 1)))
  | .deleteDocument documentId =>
    let vids := database.vidsOf documentId
    let kept := m.vectors.items.filter fun entry => entry.1 ∉ vids
    ¬ done 3 ∨ (vids = [] ∧ ¬ done 4) ∨
      (Uniform m.dimensions kept ∧ done (4 + fileSize m.dimensions kept.length))

def Meets (s : State) (e : Event E) : Prop :=
  ∀ m ∈ s.memory, e.call.Meets s.disk.database m e.Done

/-! ## The index file -/

theorem toNat_dim {dim : BitVec 32} (h : 0 ≤ dim.toInt) : dim.toNat = dim.toInt.toNat := by
  rw [BitVec.toInt_eq_toNat_cond] at h ⊢
  split_ifs at h ⊢ <;> omega

theorem length_encodeEntry (e : Entry) : (encodeEntry e).length = 8 + 4 * e.2.length := by
  obtain ⟨vid, v⟩ := e
  rw [encodeEntry, List.length_append, length_toBytes, List.length_flatMap]
  simp [Nat.mul_comm]

/-- What was read: vectors of the dimension of the file, and no more than its bytes hold. -/
theorem loadEntries_spec {dim : BitVec 32} {b : List UInt8} {entries : List Entry}
    (h : loadEntries dim b = some entries) :
    entries.length * (8 + 4 * dim.toInt.toNat) ≤ b.length ∧
      ∀ e ∈ entries, (e.2.length : ℤ) = dim.toInt := by
  fun_induction loadEntries dim b generalizing entries with
  | case1 b hend =>
    obtain rfl := Option.some.inj h
    exact ⟨by simp, nofun⟩
  | case2 => exact nomatch h
  | case3 => exact nomatch h
  | case4 b hlong hneg hlen v =>
    rename_i ih
    obtain ⟨rest, hrest, rfl⟩ := Option.map_eq_some_iff.1 h
    obtain ⟨hsize, hrest'⟩ := ih hrest
    have hdim : dim.toNat = dim.toInt.toNat := toNat_dim (by omega)
    rw [List.length_drop] at hsize
    refine ⟨?_, fun e he => ?_⟩
    · rw [List.length_cons, Nat.succ_mul]
      omega
    · rcases List.mem_cons.1 he with rfl | he
      · rw [List.length_map, List.length_range, hdim]
        omega
      · exact hrest' e he

/-- The floats of a vector are read back, whatever follows them. -/
theorem map_range_floats (v : Vec) (rest : List UInt8) :
    ((List.range v.length).map fun i => UInt32.ofNat (ofBytes
      (((v.flatMap (fun bits => toBytes 4 bits.toNat) ++ rest).drop (4 * i)).take 4))) = v := by
  induction v with
  | nil => rfl
  | cons bits v ih =>
    have hfour := length_toBytes 4 bits.toNat
    have htail : ∀ i, ((bits :: v).flatMap (fun bits => toBytes 4 bits.toNat) ++ rest).drop
        (4 * (i + 1)) = (v.flatMap (fun bits => toBytes 4 bits.toNat) ++ rest).drop (4 * i) := by
      intro i
      rw [List.flatMap_cons, List.append_assoc, Nat.mul_succ, Nat.add_comm, ← List.drop_drop,
        List.drop_left' hfour]
    rw [List.length_cons, List.range_succ_eq_map, List.map_cons, List.map_map]
    refine congrArg₂ List.cons ?_ ?_
    · rw [List.flatMap_cons, List.append_assoc, Nat.mul_zero, List.drop_zero,
        List.take_left' hfour, ofBytes_toBytes bits.toNat_lt, UInt32.ofNat_toNat]
    · simp only [Function.comp_def, Nat.succ_eq_add_one, htail]
      exact ih

/-- Uniform entries are read back. -/
theorem loadEntries_encode {dim : BitVec 32} {entries : List Entry}
    (hid : ∀ e ∈ entries, e.1 < 2 ^ 64) (hdim : Uniform dim entries) :
    loadEntries dim (entries.flatMap encodeEntry) = some entries := by
  induction entries with
  | nil => rw [loadEntries, List.flatMap_nil, if_pos (by simp)]
  | cons e entries ih =>
    obtain ⟨vid, v⟩ := e
    have hv : (v.length : ℤ) = dim.toInt := hdim (vid, v) List.mem_cons_self
    have hnat : dim.toNat = dim.toInt.toNat := toNat_dim (by omega)
    have hlen : v.length = dim.toNat := by omega
    have hentry := length_encodeEntry (vid, v)
    dsimp only at hentry
    have htotal : ((vid, v) :: entries).flatMap encodeEntry =
        toBytes 8 vid ++ (v.flatMap (fun bits => toBytes 4 bits.toNat) ++
          entries.flatMap encodeEntry) := by
      rw [List.flatMap_cons, encodeEntry, List.append_assoc]
    have hbytes : (((vid, v) :: entries).flatMap encodeEntry).length =
        8 + 4 * dim.toNat + (entries.flatMap encodeEntry).length := by
      rw [List.flatMap_cons, List.length_append, hentry, hlen]
    rw [loadEntries, if_neg (by omega), if_neg (by omega), if_neg (by omega)]
    have hdrop : (((vid, v) :: entries).flatMap encodeEntry).drop (8 + 4 * dim.toNat) =
        entries.flatMap encodeEntry := by
      rw [List.flatMap_cons]
      exact List.drop_left' (by rw [hentry, hlen])
    have hhead : ofBytes ((((vid, v) :: entries).flatMap encodeEntry).take 8) = vid := by
      rw [htotal, List.take_left' (length_toBytes 8 vid)]
      exact ofBytes_toBytes (hid (vid, v) List.mem_cons_self)
    have hfloats : ((List.range dim.toNat).map fun i => UInt32.ofNat
        (ofBytes (((((vid, v) :: entries).flatMap encodeEntry).drop (8 + 4 * i)).take 4))) = v := by
      have hskip : ∀ i, (((vid, v) :: entries).flatMap encodeEntry).drop (8 + 4 * i) =
          (v.flatMap (fun bits => toBytes 4 bits.toNat) ++ entries.flatMap encodeEntry).drop
            (4 * i) := fun i => by
        rw [htotal, ← List.drop_drop, List.drop_left' (length_toBytes 8 vid)]
      simp only [hskip, ← hlen]
      exact map_range_floats v _
    dsimp only
    rw [hdrop, hhead, hfloats, ih (fun e he => hid e (List.mem_cons_of_mem _ he))
      fun e he => hdim e (List.mem_cons_of_mem _ he)]
    rfl

theorem length_encodeIndex (dimensions : BitVec 32) (entries : List Entry) :
    (encodeIndex dimensions entries).length =
      4 + (entries.flatMap encodeEntry).length := by
  rw [encodeIndex, List.length_append, length_toBytes]

/-- Vectors that are no longer than the dimension; only uniform ones fill their records. -/
theorem length_flatMap_encodeEntry {dimensions : BitVec 32} {entries : List Entry}
    (h : ∀ e ∈ entries, e.2.length ≤ dimensions.toInt.toNat) :
    (entries.flatMap encodeEntry).length ≤ entries.length * (8 + 4 * dimensions.toInt.toNat) ∧
      (entries.length * (8 + 4 * dimensions.toInt.toNat) ≤ (entries.flatMap encodeEntry).length ↔
        ∀ e ∈ entries, e.2.length = dimensions.toInt.toNat) := by
  induction entries with
  | nil => simp
  | cons e entries ih =>
    obtain ⟨hle, hiff⟩ := ih fun e he => h e (List.mem_cons_of_mem _ he)
    have he := h e List.mem_cons_self
    rw [List.flatMap_cons, List.length_append, length_encodeEntry, List.length_cons,
      Nat.succ_mul entries.length, List.forall_mem_cons, ← hiff]
    refine ⟨by omega, fun hge => ⟨by omega, by omega⟩, fun ⟨hlen, hrest⟩ => by omega⟩

theorem length_encodeIndex_of_uniform {dimensions : BitVec 32} {entries : List Entry}
    (h : Uniform dimensions entries) :
    (encodeIndex dimensions entries).length = fileSize dimensions entries.length := by
  have hlen : ∀ e ∈ entries, e.2.length = dimensions.toInt.toNat := fun e he => by
    have := h e he
    omega
  obtain ⟨hle, hiff⟩ := length_flatMap_encodeEntry fun e he => (hlen e he).le
  rw [length_encodeIndex, fileSize]
  have := hiff.2 hlen
  omega

theorem take_encodeIndex (dimensions : BitVec 32) (entries : List Entry) :
    BitVec.ofNat 32 (ofBytes ((encodeIndex dimensions entries).take 4)) = dimensions := by
  rw [encodeIndex, List.take_left' (length_toBytes 4 _), ofBytes_toBytes dimensions.isLt,
    BitVec.ofNat_toNat, BitVec.setWidth_eq]

theorem loadIndex_encode {dimensions : BitVec 32} {entries : List Entry}
    (hid : ∀ e ∈ entries, e.1 < 2 ^ 64) (h : Uniform dimensions entries) :
    loadIndex (encodeIndex dimensions entries) = some (dimensions, entries) := by
  have hrest : (encodeIndex dimensions entries).drop 4 = entries.flatMap encodeEntry := by
    rw [encodeIndex, List.drop_left' (length_toBytes 4 _)]
  rw [loadIndex, length_encodeIndex, if_neg (by omega)]
  dsimp only
  rw [take_encodeIndex, hrest, loadEntries_encode hid h]
  rfl

theorem loadIndex_eq_some {file : List UInt8} {dim : BitVec 32} {entries : List Entry}
    (h : loadIndex file = some (dim, entries)) :
    4 ≤ file.length ∧ dim = BitVec.ofNat 32 (ofBytes (file.take 4)) ∧
      loadEntries (BitVec.ofNat 32 (ofBytes (file.take 4))) (file.drop 4) = some entries := by
  rw [loadIndex] at h
  split_ifs at h with hlen
  obtain ⟨read, hread, heq⟩ := Option.map_eq_some_iff.1 h
  obtain ⟨hdim, rfl⟩ := Prod.mk.inj heq
  exact ⟨by omega, hdim.symm, hread⟩

/-! ## Opening -/

/-- The ids in the index file; there are none without a file. -/
def fileIds : Option (List UInt8) → Option (List ℕ)
  | none => some []
  | some file => (loadIndex file).map fun r => r.2.map Prod.fst

/-- Opening does not depend on the dimension that `initSchema` is called with. -/
theorem reopens_iff_fileIds {disk : Disk} : Reopens disk ↔ ∃ ids, fileIds disk.index = some ids ∧
    ∀ vid, vid ∈ ids ↔ vid ∈ disk.database.chunks.map Faiss.ChunkRow.vid := by
  unfold Reopens initSchema fileIds Agrees
  cases disk.index with
  | none => simp [Dict.empty]
  | some file =>
    cases hload : loadIndex file with
    | none => simp [hload]
    | some r => simp only [hload, Option.map_some, Option.some.injEq, exists_eq_left',
        Dict.mem_keys_ofPairs, forall_const]

theorem reopens_congr {disk disk' : Disk} (hindex : disk'.index = disk.index)
    (hids : ∀ vid, vid ∈ disk'.database.chunks.map Faiss.ChunkRow.vid ↔
      vid ∈ disk.database.chunks.map Faiss.ChunkRow.vid) : Reopens disk' ↔ Reopens disk := by
  rw [reopens_iff_fileIds, reopens_iff_fileIds, hindex]
  simp only [hids]

/-- **A file that is written up to a byte** is read back with the ids of the table exactly if it is
complete, and its vectors are uniform. -/
theorem reopens_take_iff {dimensions : BitVec 32} {entries : List Entry}
    {database : Faiss.Database} (hnodup : (entries.map Prod.fst).Nodup)
    (hlen : ∀ e ∈ entries, e.2.length ≤ dimensions.toInt.toNat)
    (hids : ∀ vid, vid ∈ entries.map Prod.fst ↔ vid ∈ database.chunks.map Faiss.ChunkRow.vid)
    (hmax : ∀ e ∈ entries, e.1 < 2 ^ 64) (k : ℕ) :
    Reopens ⟨database, some ((encodeIndex dimensions entries).take k)⟩ ↔
      Uniform dimensions entries ∧ fileSize dimensions entries.length ≤ k := by
  rw [reopens_iff_fileIds]
  constructor
  · rintro ⟨ids, hfile, hsame⟩
    obtain ⟨⟨dim, read⟩, hload, rfl⟩ := Option.map_eq_some_iff.1 hfile
    obtain ⟨hfour, rfl, hread⟩ := loadIndex_eq_some hload
    rw [List.length_take, length_encodeIndex] at hfour
    rw [List.take_take, Nat.min_eq_left (by omega), take_encodeIndex] at hread
    obtain ⟨hsize, hlens⟩ := loadEntries_spec hread
    rw [List.length_drop, List.length_take, length_encodeIndex] at hsize
    -- The ids of the table are all in the file, so it has a whole record for each.
    have hsub : entries.map Prod.fst ⊆ read.map Prod.fst := fun vid hvid =>
      (hsame vid).2 ((hids vid).1 hvid)
    have hcount : entries.length ≤ read.length := by
      simpa using (hnodup.subperm hsub).length_le
    have hmul := Nat.mul_le_mul_right (8 + 4 * dimensions.toInt.toNat) hcount
    obtain ⟨hle, hiff⟩ := length_flatMap_encodeEntry hlen
    have heq := hiff.1 (by omega)
    refine ⟨fun e he => ?_, by rw [fileSize]; omega⟩
    have hpos : 0 < read.length := (List.length_pos_of_mem he).trans_le hcount
    have hfirst := hlens _ (List.getElem_mem hpos)
    have := heq e he
    omega
  · rintro ⟨huniform, hk⟩
    rw [← length_encodeIndex_of_uniform huniform] at hk
    refine ⟨entries.map Prod.fst, ?_, hids⟩
    rw [List.take_of_length_le hk, fileIds, loadIndex_encode hmax huniform]
    rfl

theorem mapM_id_eq_none_iff {α : Type} (l : List (Option α)) : l.mapM id = none ↔ none ∈ l := by
  induction l with
  | nil => simp
  | cons a l ih =>
    rw [List.mapM_cons, List.mem_cons, ← ih]
    cases a with
    | none => simp
    | some a => cases l.mapM id <;> simp

/-- No vector is longer than the dimension. -/
def Bounded (m : Memory) : Prop :=
  ∀ e ∈ m.vectors.items, e.2.length ≤ m.dimensions.toInt.toNat

theorem uniform_perm {dimensions : BitVec 32} {l l' : List Entry} (h : l.Perm l') :
    Uniform dimensions l ↔ Uniform dimensions l' := by
  simp only [Uniform, h.mem_iff]

theorem uniform_concat {dimensions : BitVec 32} {l : List Entry} {vid : ℕ} {v : Vec}
    (h : (v.length : ℤ) = dimensions.toInt) :
    Uniform dimensions (l ++ [(vid, v)]) ↔ Uniform dimensions l := by
  refine ⟨fun hl e he => hl e (List.mem_append_left _ he), fun hl e he => ?_⟩
  rcases List.mem_append.1 he with he | he
  · exact hl e he
  · rw [List.mem_singleton.1 he]
    exact h

/-- What was saved is opened exactly if it is complete, and uniform. -/
theorem reopens_saved_iff {m : Memory} {database : Faiss.Database} (hagrees : Agrees database m)
    (hbounded : Bounded m) (hmax : database.lastVid ≤ MAX_VID) (order : Order) (k : ℕ) :
    Reopens ⟨database, some ((encodeIndex m.dimensions (order.1 m.vectors.items)).take k)⟩ ↔
      Uniform m.dimensions m.vectors.items ∧
        fileSize m.dimensions m.vectors.items.length ≤ k := by
  have hperm := order.2 m.vectors.items
  rw [reopens_take_iff, uniform_perm hperm, hperm.length_eq]
  · exact (hperm.map _).nodup_iff.2 m.vectors.nodup
  · exact fun e he => hbounded e (hperm.mem_iff.1 he)
  · exact fun vid => ((hperm.map _).mem_iff).trans (hagrees vid)
  · intro e he
    obtain ⟨row, hrow, hvid⟩ := List.mem_map.1
      ((hagrees e.1).1 (List.mem_map_of_mem (hperm.mem_iff.1 he)))
    have hle := database.vid_le row hrow
    rw [MAX_VID] at hmax
    omega

theorem mem_ids_remove {m : Memory} {vids : List ℕ} {vid : ℕ} :
    vid ∈ (m.remove vids).vectors.items.map Prod.fst ↔
      vid ∈ m.vectors.items.map Prod.fst ∧ vid ∉ vids := by
  simp only [Memory.remove, Dict.filter, List.mem_map, List.mem_filter, decide_eq_true_eq]
  constructor
  · rintro ⟨e, ⟨he, hnot⟩, rfl⟩
    exact ⟨⟨e, he, rfl⟩, hnot⟩
  · rintro ⟨⟨e, he, rfl⟩, hnot⟩
    exact ⟨e, ⟨he, hnot⟩, rfl⟩

theorem agrees_put {m : Memory} {database : Faiss.Database} {v : Vec} {d name : Str} {i : ℤ}
    {text : Str} {n : ℤ} {metadata : Metadata} (h : Agrees database m) :
    Agrees (database.insertChunk d name i text n metadata) (m.put (database.lastVid + 1) v) := by
  intro vid
  rw [Memory.put, Dict.mem_keys_set, Faiss.mem_vids_insertChunk, h]

theorem bounded_put {m : Memory} {vid : ℕ} {v : Vec} (h : Bounded m)
    (hv : (v.length : ℤ) = m.dimensions.toInt) : Bounded (m.put vid v) := by
  intro e he
  rcases Dict.mem_of_mem_set he with he | rfl
  · exact h e he
  · change v.length ≤ m.dimensions.toInt.toNat
    omega

theorem agrees_remove {m : Memory} {database : Faiss.Database} (documentId : Str)
    (h : Agrees database m) :
    Agrees ((database.deleteDocument documentId).deleteChunks documentId)
      (m.remove (database.vidsOf documentId)) := fun vid => by
  rw [mem_ids_remove, h]
  exact Faiss.mem_vids_deleteChunks.symm

theorem bounded_remove {m : Memory} (vids : List ℕ) (h : Bounded m) : Bounded (m.remove vids) :=
  fun e he => h e (List.mem_filter.1 he).1

/-- A row that has no vector in the file. -/
theorem not_reopens_of_row {disk : Disk} {d name : Str} {i : ℤ} {text : Str} {n : ℤ}
    {metadata : Metadata} (h : Reopens disk) :
    ¬ Reopens ⟨disk.database.insertChunk d name i text n metadata, disk.index⟩ := by
  rw [reopens_iff_fileIds] at h ⊢
  rintro ⟨ids', hfile', hids'⟩
  obtain ⟨ids, hfile, hids⟩ := h
  obtain rfl := Option.some.inj (hfile.symm.trans hfile')
  have hnew := (hids' (disk.database.lastVid + 1)).2 (Faiss.mem_vids_insertChunk.2 (.inr rfl))
  exact Faiss.next_not_mem_vids disk.database ((hids _).1 hnew)

/-! ## A call that is cut off -/

section Cut

variable {bits} {order : Order} {m : Memory} {disk : Disk}

theorem cutAt_writes (b : List UInt8) (n : ℕ) (database : Faiss.Database) (file : List UInt8)
    (r : Memory) :
    (Prog.forEach (fun b => stmt (.write b)) b >>= fun _ => Prog.ret r).cutAt act n
      ⟨database, some file⟩ = ⟨database, some (file ++ b.take n)⟩ := by
  induction b generalizing n file with
  | nil => simp [Prog.forEach]
  | cons c b ih =>
    cases n with
    | zero => simp
    | succ n =>
      refine (ih n (file ++ [c])).trans ?_
      simp

/-- Saving empties the file and then writes it. -/
theorem cutAt_saveIndex (n : ℕ) (r : Memory) :
    (saveIndex order m >>= fun _ => Prog.ret r).cutAt act (n + 1) disk =
      ⟨disk.database, some ((encodeIndex m.dimensions (order.1 m.vectors.items)).take n)⟩ :=
  cutAt_writes _ n disk.database [] r

theorem run_insertChunk {chunk : NewChunk (List (Option E))}
    (hdim : (chunk.embedding.length : ℤ) = m.dimensions.toInt) :
    (Call.insertChunk chunk).run bits order m =
      .op (.insertChunk { chunk with embedding := () }) fun vid =>
        match vid, normalize bits chunk.embedding with
        | none, _ | some _, none => .ret m
        | some vid, some v => saveIndex order (m.put vid v) >>= fun _ => .ret (m.put vid v) := by
  rw [Call.run, insertChunk, if_neg (not_not.2 hdim)]
  refine congrArg (Prog.op _) (funext fun vid => ?_)
  rcases vid with _ | vid
  · rfl
  · cases normalize bits chunk.embedding with
    | none => rfl
    | some v =>
      exact Prog.bind_assoc (saveIndex order (m.put vid v)) (fun _ => pure (true, m.put vid v))
        fun r => pure r.2

theorem run_deleteDocument (documentId : Str) :
    (Call.deleteDocument documentId : Call E).run bits order m =
      .op (.selectVids documentId) fun vids =>
        .op (.deleteDocument documentId) fun _ =>
          .op (.deleteChunks documentId) fun _ =>
            saveIndex order (m.remove vids) >>= fun _ => .ret (m.remove vids) :=
  congrArg (Prog.op _) (funext fun vids => congrArg (Prog.op _) (funext fun deletedCount =>
    congrArg (Prog.op _) (funext fun _ => Prog.bind_assoc (saveIndex order (m.remove vids))
      (fun _ => pure (decide (0 < deletedCount), m.remove vids)) fun r => pure r.2)))

theorem normalize_eq_some {embedding : List (Option E)} {v : Vec}
    (h : normalize bits embedding = some v) : none ∉ embedding ∧ v.length = embedding.length := by
  obtain ⟨es, hes, rfl⟩ := Option.map_eq_some_iff.1 h
  refine ⟨fun hnone => ?_, by simp⟩
  rw [(mapM_id_eq_none_iff embedding).2 hnone] at hes
  exact nomatch hes

/-- What `insertChunk` leaves when it dies: the row without its vector, a part of the file, or all
of it. -/
theorem reopens_insertChunk_iff {chunk : NewChunk (List (Option E))}
    (hagrees : Agrees disk.database m) (hbounded : Bounded m) (hopens : Reopens disk)
    (hmax : disk.database.lastVid ≤ MAX_VID) (n : ℕ) :
    Reopens (((Call.insertChunk chunk).run bits order m).cutAt act n disk) ↔
      (Call.insertChunk chunk).Meets disk.database m (· ≤ n) := by
  by_cases hdim : (chunk.embedding.length : ℤ) = m.dimensions.toInt
  swap
  · refine iff_of_true ?_ (.inl hdim)
    rw [Call.run, insertChunk, if_pos hdim]
    change Reopens ((Prog.ret m : Prog Statements Memory).cutAt act n disk)
    rwa [Prog.cutAt_ret]
  cases n with
  | zero =>
    rw [Prog.cutAt_zero]
    exact iff_of_true hopens (.inr (.inr (.inl nofun)))
  | succ n =>
    rw [run_insertChunk hdim, Prog.cutAt]
    by_cases hfull : disk.database.lastVid = MAX_VID
    · refine iff_of_true ?_ (.inr (.inl hfull))
      simp only [act, if_pos hfull, Prog.cutAt_ret]
      exact hopens
    · have hvid := Faiss.next_not_mem_vids disk.database
      have hnone : m.vectors.get? (disk.database.lastVid + 1) = none :=
        Option.eq_none_iff_forall_ne_some.2 fun v hv =>
          hvid ((hagrees _).1 (List.mem_map_of_mem (Dict.get?_eq_some_iff.1 hv)))
      have hnorow : ¬ Reopens ⟨disk.database.insertChunk chunk.documentId chunk.documentName
          chunk.chunkIndex chunk.text chunk.tokenCount chunk.metadata, disk.index⟩ :=
        not_reopens_of_row hopens
      simp only [act, if_neg hfull]
      cases hv : normalize bits chunk.embedding with
      | none =>
        have hmem : none ∈ chunk.embedding := by
          rw [normalize, Option.map_eq_none_iff, mapM_id_eq_none_iff] at hv
          exact hv
        dsimp only
        rw [Prog.cutAt_ret]
        refine iff_of_false hnorow ?_
        simp [Call.Meets, hdim, hfull, hmem]
      | some v =>
        obtain ⟨hall, hlen⟩ := normalize_eq_some hv
        cases n with
        | zero =>
          dsimp only
          rw [Prog.cutAt_zero]
          refine iff_of_false hnorow ?_
          rintro (hother | hother | hother | ⟨-, -, hdone⟩)
          · exact hother hdim
          · exact hfull hother
          · exact hother le_rfl
          · omega
        | succ n =>
          have hitems := Dict.items_set_of_none hnone v
          dsimp only
          rw [cutAt_saveIndex, reopens_saved_iff]
          · dsimp only [Memory.put]
            rw [hitems, List.length_append, List.length_singleton, uniform_concat (by omega)]
            constructor
            · rintro ⟨hold, hsize⟩
              exact .inr (.inr (.inr ⟨hall, hold, by dsimp only; omega⟩))
            · rintro (hother | hother | hother | ⟨-, hold, hdone⟩)
              · exact absurd hdim hother
              · exact absurd hother hfull
              · exact absurd (Nat.le_add_left 1 (n + 1)) hother
              · exact ⟨hold, by omega⟩
          · exact agrees_put hagrees
          · exact bounded_put hbounded (by omega)
          · change disk.database.lastVid + 1 ≤ MAX_VID
            omega

theorem reopens_deleteDocument_iff {documentId : Str} (hagrees : Agrees disk.database m)
    (hbounded : Bounded m) (hopens : Reopens disk) (hmax : disk.database.lastVid ≤ MAX_VID)
    (n : ℕ) :
    Reopens (((Call.deleteDocument documentId : Call E).run bits order m).cutAt act n disk) ↔
      (Call.deleteDocument documentId : Call E).Meets disk.database m (· ≤ n) := by
  rw [run_deleteDocument]
  rcases n with _ | _ | _ | n
  · rw [Prog.cutAt_zero]
    exact iff_of_true hopens (.inl (by omega))
  · rw [Prog.cutAt, Prog.cutAt_zero]
    exact iff_of_true hopens (.inl (by omega))
  · rw [Prog.cutAt, Prog.cutAt, Prog.cutAt_zero]
    exact iff_of_true ((reopens_congr rfl fun _ => Iff.rfl).2 hopens) (.inl (by omega))
  · rw [Prog.cutAt, Prog.cutAt, Prog.cutAt]
    change Reopens (Prog.cutAt act n (saveIndex order (m.remove (disk.database.vidsOf documentId))
      >>= fun _ => Prog.ret _) ⟨(disk.database.deleteDocument documentId).deleteChunks documentId,
        disk.index⟩) ↔ _
    have hvids : ∀ vid, vid ∈ ((disk.database.deleteDocument documentId).deleteChunks
        documentId).chunks.map Faiss.ChunkRow.vid ↔
          vid ∈ disk.database.chunks.map Faiss.ChunkRow.vid ∧
            vid ∉ disk.database.vidsOf documentId := fun _ => Faiss.mem_vids_deleteChunks
    cases n with
    | zero =>
      rw [Prog.cutAt_zero]
      constructor
      · intro h
        refine .inr (.inl ⟨List.eq_nil_iff_forall_not_mem.2 fun vid hvid => ?_, by omega⟩)
        obtain ⟨ids, hfile, hids⟩ := reopens_iff_fileIds.1 hopens
        obtain ⟨ids', hfile', hids'⟩ := reopens_iff_fileIds.1 h
        obtain rfl := Option.some.inj (hfile.symm.trans hfile')
        obtain ⟨row, hrow, rfl⟩ := List.mem_map.1 hvid
        have hin := (hids row.vid).2 (List.mem_map_of_mem (List.mem_filter.1 hrow).1)
        exact ((hvids row.vid).1 ((hids' row.vid).1 hin)).2 hvid
      · rintro (hdone | ⟨hnil, -⟩ | ⟨-, hdone⟩)
        · omega
        · have hsame : Reopens ⟨(disk.database.deleteDocument documentId).deleteChunks documentId,
              disk.index⟩ ↔ Reopens disk :=
            reopens_congr rfl fun vid => (hvids vid).trans (by simp [hnil])
          exact hsame.2 hopens
        · omega
    | succ n =>
      rw [cutAt_saveIndex, reopens_saved_iff]
      · dsimp only [Memory.remove, Dict.filter]
        constructor
        · rintro ⟨huniform, hsize⟩
          exact .inr (.inr ⟨huniform, by omega⟩)
        · rintro (hdone | ⟨-, hdone⟩ | ⟨huniform, hdone⟩)
          · omega
          · omega
          · exact ⟨huniform, by omega⟩
      · exact agrees_remove documentId hagrees
      · exact bounded_remove _ hbounded
      · exact hmax

/-- A document changes neither the chunks nor the file. -/
theorem act_insertDocument (row : DocumentRow) (disk : Disk) :
    (act (.insertDocument row) disk).2.index = disk.index ∧
      (act (.insertDocument row) disk).2.database.chunks = disk.database.chunks ∧
        (act (.insertDocument row) disk).2.database.lastVid = disk.database.lastVid := by
  dsimp only [act, Faiss.Database.insertDocument]
  split_ifs <;> exact ⟨rfl, rfl, rfl⟩

/-- Documents do not matter. -/
theorem reopens_insertDocument (row : DocumentRow) (hopens : Reopens disk) (n : ℕ) :
    Reopens (((Call.insertDocument row : Call E).run bits order m).cutAt act n disk) := by
  cases n with
  | zero => rwa [Prog.cutAt_zero]
  | succ n =>
    change Reopens (Prog.cutAt act n (Prog.ret m : Prog Statements Memory)
      (act (.insertDocument row) disk).2)
    obtain ⟨hindex, hchunks, -⟩ := act_insertDocument row disk
    rw [Prog.cutAt_ret]
    exact (reopens_congr hindex fun _ => by rw [hchunks]).2 hopens

/-- **What a call that dies leaves** opens with the ids of the table exactly if the call meets the
condition. -/
theorem reopens_cutAt_iff {call : Call E} (hagrees : Agrees disk.database m) (hbounded : Bounded m)
    (hopens : Reopens disk) (hmax : disk.database.lastVid ≤ MAX_VID) (n : ℕ) :
    Reopens ((call.run bits order m).cutAt act n disk) ↔
      call.Meets disk.database m (· ≤ n) := by
  cases call with
  | insertDocument row => exact iff_of_true (reopens_insertDocument row hopens n) trivial
  | insertChunk chunk => exact reopens_insertChunk_iff hagrees hbounded hopens hmax n
  | deleteDocument documentId => exact reopens_deleteDocument_iff hagrees hbounded hopens hmax n

/-- A call that comes to its end has done all statements. -/
theorem reopens_final_iff {call : Call E} (hagrees : Agrees disk.database m) (hbounded : Bounded m)
    (hopens : Reopens disk) (hmax : disk.database.lastVid ≤ MAX_VID) :
    Reopens ((call.run bits order m).final act disk).2 ↔
      call.Meets disk.database m fun _ => True := by
  obtain ⟨N, hN⟩ := Prog.exists_cutAt_eq_final act (call.run bits order m) disk
  obtain ⟨B, hB⟩ : ∃ B, ∀ n, B ≤ n →
      (call.Meets disk.database m (· ≤ n) ↔ call.Meets disk.database m fun _ => True) := by
    cases call with
    | insertDocument row => exact ⟨0, fun n _ => Iff.rfl⟩
    | insertChunk chunk =>
      refine ⟨2 + fileSize m.dimensions (m.vectors.items.length + 1), fun n hn => ?_⟩
      have hone : 1 ≤ n := by omega
      simp [Call.Meets, hn, hone]
    | deleteDocument documentId =>
      refine ⟨4 + fileSize m.dimensions (m.vectors.items.filter fun entry =>
        entry.1 ∉ disk.database.vidsOf documentId).length, fun n hn => ?_⟩
      have hthree : 3 ≤ n := by omega
      have hfour : 4 ≤ n := by omega
      simp only [Call.Meets, hn, hthree, hfour]
  rw [← hN (max N B) (le_max_left N B), reopens_cutAt_iff hagrees hbounded hopens hmax,
    hB _ (le_max_right N B)]

/-! ## A call that returns -/

theorem final_saveIndex (r : Memory) :
    ((saveIndex order m >>= fun _ => Prog.ret r).final act disk).1 = r ∧
      ((saveIndex order m >>= fun _ => Prog.ret r).final act disk).2.database =
        disk.database := by
  refine ⟨congrArg Prod.fst (Prog.final_bind_ret act (saveIndex order m) r disk), ?_⟩
  obtain ⟨N, hN⟩ := Prog.exists_cutAt_eq_final act (saveIndex order m >>= fun _ => Prog.ret r) disk
  rw [← hN (N + 1) (Nat.le_succ N), cutAt_saveIndex]

/-- The memory that a call leaves, which meets the condition. -/
theorem final_agrees {call : Call E} (hagrees : Agrees disk.database m) (hbounded : Bounded m)
    (hmeets : call.Meets disk.database m fun _ => True) :
    Agrees ((call.run bits order m).final act disk).2.database
        ((call.run bits order m).final act disk).1 ∧
      Bounded ((call.run bits order m).final act disk).1 := by
  cases call with
  | insertDocument row =>
    change Agrees (act (.insertDocument row) disk).2.database m ∧ Bounded m
    obtain ⟨-, hchunks, -⟩ := act_insertDocument row disk
    refine ⟨fun vid => ?_, hbounded⟩
    rw [hchunks]
    exact hagrees vid
  | insertChunk chunk =>
    by_cases hdim : (chunk.embedding.length : ℤ) = m.dimensions.toInt
    swap
    · rw [Call.run, insertChunk, if_pos hdim]
      exact ⟨hagrees, hbounded⟩
    rw [run_insertChunk hdim, Prog.final]
    by_cases hfull : disk.database.lastVid = MAX_VID
    · simp only [act, if_pos hfull]
      exact ⟨hagrees, hbounded⟩
    · simp only [act, if_neg hfull]
      cases hv : normalize bits chunk.embedding with
      | none =>
        rw [normalize, Option.map_eq_none_iff, mapM_id_eq_none_iff] at hv
        rcases hmeets with hother | hother | hother | ⟨hall, -⟩
        · exact absurd hdim hother
        · exact absurd hother hfull
        · exact absurd trivial hother
        · exact absurd hv hall
      | some v =>
        obtain ⟨-, hlen⟩ := normalize_eq_some hv
        dsimp only
        rw [(final_saveIndex _).1, (final_saveIndex _).2]
        exact ⟨agrees_put hagrees, bounded_put hbounded (by omega)⟩
  | deleteDocument documentId =>
    rw [run_deleteDocument, Prog.final, Prog.final, Prog.final, (final_saveIndex _).1,
      (final_saveIndex _).2]
    exact ⟨agrees_remove documentId hagrees, bounded_remove _ hbounded⟩

end Cut

/-! ## Runs -/

/-- In a state from which all is well. -/
structure Inv (s : State) (m : Memory) : Prop where
  memory : s.memory = some m
  agrees : Agrees s.disk.database m
  bounded : Bounded m
  reopens : Reopens s.disk
  lastVid_le : s.disk.database.lastVid ≤ MAX_VID

theorem bounded_initSchema {dimensions : BitVec 32} {disk : Disk} {m : Memory}
    (h : initSchema dimensions disk = some m) : Bounded m := by
  unfold initSchema at h
  cases hindex : disk.index with
  | none =>
    rw [hindex] at h
    obtain rfl := Option.some.inj h
    exact nofun
  | some file =>
    rw [hindex] at h
    obtain ⟨⟨dim, entries⟩, hload, rfl⟩ := Option.map_eq_some_iff.1 h
    obtain ⟨-, rfl, hread⟩ := loadIndex_eq_some hload
    intro e he
    have hlen := (loadEntries_spec hread).2 e (Dict.mem_of_mem_ofPairs he)
    dsimp only
    split_ifs <;> omega

theorem lastVid_act (o : Op) (disk : Disk) (h : disk.database.lastVid ≤ MAX_VID) :
    (act o disk).2.database.lastVid ≤ MAX_VID := by
  cases o with
  | insertDocument row =>
    rw [(act_insertDocument row disk).2.2]
    exact h
  | insertChunk chunk =>
    dsimp only [act]
    split_ifs with hfull
    · exact h
    · change disk.database.lastVid + 1 ≤ MAX_VID
      omega
  | _ => exact h

theorem done_none (call : Call E) (order : Order) :
    (⟨call, order, none⟩ : Event E).Done = fun _ => True := by
  funext k
  simp [Event.Done]

theorem done_some (call : Call E) (order : Order) (n : ℕ) (dimensions : BitVec 32) :
    (⟨call, order, some (n, dimensions)⟩ : Event E).Done = (· ≤ n) := by
  funext k
  simp [Event.Done]

variable {bits} {s : State} {m : Memory}

theorem step_call (h : s.memory = some m) (call : Call E) (order : Order) :
    step bits s ⟨call, order, none⟩ = ⟨((call.run bits order m).final act s.disk).2,
      some ((call.run bits order m).final act s.disk).1⟩ := by
  rw [step, h]

theorem step_crash (h : s.memory = some m) (call : Call E) (order : Order) (n : ℕ)
    (dimensions : BitVec 32) :
    step bits s ⟨call, order, some (n, dimensions)⟩ =
      ⟨(call.run bits order m).cutAt act n s.disk,
        initSchema dimensions ((call.run bits order m).cutAt act n s.disk)⟩ := by
  rw [step, h]

theorem meets_iff (h : s.memory = some m) (e : Event E) :
    Meets s e ↔ e.call.Meets s.disk.database m e.Done := by
  rw [Meets, h]
  simp

/-- What one event does: all stays well exactly if the condition is met. -/
theorem step_sound_iff (h : Inv s m) (e : Event E) : Sound (step bits s e) ↔ Meets s e := by
  rw [meets_iff h.memory]
  obtain ⟨call, order, _ | ⟨n, dimensions⟩⟩ := e
  · have hfinal : Reopens ((call.run bits order m).final act s.disk).2 ↔
        call.Meets s.disk.database m fun _ => True :=
      reopens_final_iff h.agrees h.bounded h.reopens h.lastVid_le
    rw [step_call h.memory, done_none, ← hfinal]
    refine ⟨fun hs => hs.2, fun hs => ⟨⟨_, rfl, ?_⟩, hs⟩⟩
    exact (final_agrees h.agrees h.bounded (hfinal.1 hs)).1
  · rw [step_crash h.memory, done_some,
      ← reopens_cutAt_iff h.agrees h.bounded h.reopens h.lastVid_le]
    exact ⟨fun hs => hs.2, fun hs => ⟨hs dimensions, hs⟩⟩

theorem lastVid_cut {p : Prog Statements Memory} {disk disk' : Disk}
    (h : Prog.Cut act p disk disk') (hle : disk.database.lastVid ≤ MAX_VID) :
    disk'.database.lastVid ≤ MAX_VID :=
  Prog.Cut.keeps (S := Statements) act (I := fun disk => disk.database.lastVid ≤ MAX_VID)
    lastVid_act h hle

theorem inv_step (h : Inv s m) (e : Event E) (hs : Sound (step bits s e)) :
    ∃ m', Inv (step bits s e) m' := by
  have hmeets := (meets_iff h.memory e).1 ((step_sound_iff h e).1 hs)
  obtain ⟨⟨m', hm', hagrees⟩, hreopens⟩ := hs
  obtain ⟨call, order, _ | ⟨n, dimensions⟩⟩ := e
  · rw [step_call h.memory] at hm' hagrees hreopens ⊢
    rw [done_none] at hmeets
    obtain rfl := Option.some.inj hm'
    exact ⟨_, rfl, hagrees, (final_agrees h.agrees h.bounded hmeets).2, hreopens,
      lastVid_cut (Prog.cut_final act (call.run bits order m) s.disk) h.lastVid_le⟩
  · rw [step_crash h.memory] at hm' hagrees hreopens ⊢
    exact ⟨m', hm', hagrees, bounded_initSchema hm', hreopens,
      lastVid_cut (Prog.cut_cutAt act n (call.run bits order m) s.disk) h.lastVid_le⟩

/-- **Crashes survived.** In a run of calls, each of which may die at any statement or byte, the ids
agree after every call, and the directory opens with them, exactly if each call meets the
condition. -/
theorem reopens_iff (dimensions : BitVec 32) (run : List (Event E)) :
    Each (step bits) (fun s e => Sound (step bits s e)) (.opened dimensions) run ↔
      Each (step bits) Meets (.opened dimensions) run := by
  have hopened : Inv (.opened dimensions) ⟨dimensions, .empty⟩ :=
    ⟨rfl, by simp [Agrees, State.opened, Faiss.Database.empty, Dict.empty], (fun _ h => by cases h),
      reopens_iff_fileIds.2 ⟨[], rfl, by simp [State.opened, Faiss.Database.empty]⟩, Nat.zero_le _⟩
  refine each_iff (I := fun s => ∃ m, Inv s m) ?_ ?_ ⟨_, hopened⟩ run
  · rintro s e ⟨m, h⟩
    exact step_sound_iff h e
  · rintro s e ⟨m, h⟩ hs
    exact inv_step h e hs

namespace Sample

/-- A process that dies once it has opened the index file for the first chunk. -/
def dying : Event ℕ where
  call := .insertChunk ⟨['d'], ['n'], 0, ['t'], 1, [some 7], []⟩
  order := ⟨id, fun _ => .rfl⟩
  crash := some (2, 1)

/-- The next `initSchema` raises. -/
theorem directory_lost :
    ¬ ∀ (bits : List ℕ → ℕ → UInt32) (dimensions : BitVec 32) (run : List (Event ℕ)),
      (∀ e ∈ run, e.crash = none) → ∀ last : Event ℕ, ∃ m,
        (step bits (run.foldl (step bits) (.opened dimensions)) last).memory = some m ∧
          Agrees (step bits (run.foldl (step bits) (.opened dimensions)) last).disk.database m := by
  intro h
  obtain ⟨m, hm, -⟩ := h (fun _ _ => 0) 1 [] nofun dying
  exact Option.some_ne_none m hm.symm

end Sample

end RagLeap.Rag.FaissPort
