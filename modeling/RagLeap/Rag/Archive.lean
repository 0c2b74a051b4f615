import Mathlib
import RagLeap.Rag.Subtitle

/-!
# The limits of archives

`extract_text` of ragleap-rag on files that are zip archives: the check of the declared sizes, and
the extraction of a `.zip`, which reads its members under a running budget and extracts each of them
in turn. A run records the directories of the archives it opened and how much of a zip it read.

Each archive is held to limits of its own and the members read from a zip to one budget; the limit
error is raised just if one of these is exceeded (`extractText_limits`). The declared sizes of a zip
and of the documents in it are not added up (`Sample.two_documents_over`).
-/

namespace RagLeap.Rag

open Str

/-! ## Files -/

def MAX_ZIP_MEMBERS : ℕ := 1000

def MAX_ZIP_UNCOMPRESSED_BYTES : ℕ := 100 * 1024 * 1024

/-- The functions of `dispatch`. -/
inductive Handler
  | txt | pdf | docx | xlsx | xls | csv | tsv | xml | pptx | html | json | rtf | odt | ods | odp
  | eml | zip | epub | yaml | parquet | subtitle
  deriving DecidableEq

def dispatch : List (Str × Handler) :=
  [(".txt".toList, .txt), (".md".toList, .txt), (".pdf".toList, .pdf), (".docx".toList, .docx),
    (".xlsx".toList, .xlsx), (".xls".toList, .xls), (".csv".toList, .csv), (".tsv".toList, .tsv),
    (".xsl".toList, .xml), (".xslt".toList, .xml), (".pptx".toList, .pptx), (".html".toList, .html),
    (".htm".toList, .html), (".json".toList, .json), (".xml".toList, .xml), (".rtf".toList, .rtf),
    (".odt".toList, .odt), (".ods".toList, .ods), (".odp".toList, .odp), (".eml".toList, .eml),
    (".zip".toList, .zip), (".sql".toList, .txt), (".epub".toList, .epub), (".yaml".toList, .yaml),
    (".yml".toList, .yaml), (".parquet".toList, .parquet), (".vtt".toList, .subtitle),
    (".srt".toList, .subtitle)]

/-- `SUPPORTED_EXTENSIONS`, which are the keys of `dispatch`. -/
def SUPPORTED_EXTENSIONS : List Str := dispatch.map Prod.fst

def UNSUPPORTED_LEGACY : List Str := [".doc".toList, ".ppt".toList]

/-- `_ZIP_BASED_EXTENSIONS`. -/
def ZIP_BASED_EXTENSIONS : List Str :=
  [".zip", ".docx", ".xlsx", ".pptx", ".odt", ".ods", ".odp", ".epub"].map String.toList

/-- `s.rsplit(".", 1)[-1]`. -/
def afterLastDot (s : Str) : Str := (s.reverse.takeWhile (· ≠ '.')).reverse

/-- A `ZipInfo`: the name of a member and the size it declares. -/
structure ZipInfo where
  filename : Str
  file_size : ℕ
  deriving DecidableEq

/-- What `zipfile` raises. -/
inductive ZipError
  | badZipFile
  | other (text : Str)
  deriving DecidableEq

/-- What the extraction raises. -/
inductive Fault
  /-- `_ZipLimitError`. -/
  | zipLimit (text : Str)
  | zip (e : ZipError)
  /-- Any other exception. -/
  | other (text : Str)
  deriving DecidableEq

/-- The character tables, `zipfile` and the parsers of the formats that are not modelled. -/
structure ArchiveEnv where
  table : Unicode
  digits : DigitChars
  /-- `zipfile.ZipFile(io.BytesIO(raw_bytes)).infolist()`. -/
  infolist : List UInt8 → Except ZipError (List ZipInfo)
  /-- `z.open(name).read(n)`. -/
  read : List UInt8 → Str → ℕ → Except ZipError (List UInt8)
  parse : Handler → List UInt8 → Except Str Str

/-! ## Runs -/

/-- An extraction: what it returns or raises, the directories of the archives it opened, and the
lengths of what it read from the members of a zip, in order. -/
structure Run (α : Type) where
  result : Except Fault α
  opened : List (List ZipInfo)
  read : List ℕ
  deriving DecidableEq

namespace Run

variable {α β : Type}

def of (result : Except Fault α) : Run α := ⟨result, [], []⟩

def andThen (r : Run α) (f : α → Run β) : Run β :=
  match r.result with
  | .error e => ⟨.error e, r.opened, r.read⟩
  | .ok a => ⟨(f a).result, r.opened ++ (f a).opened, r.read ++ (f a).read⟩

/-- The run after `n` bytes were read from a member and `r` was done with them. -/
def afterMember (n : ℕ) (r : Run α) (rest : Run β) : Run β :=
  ⟨rest.result, r.opened ++ rest.opened, n :: (r.read ++ rest.read)⟩

end Run

/-! ## Extraction -/

section

variable (env : ArchiveEnv)

/-- `sum(i.file_size for i in infos)`. -/
def declared (infos : List ZipInfo) : ℕ := (infos.map ZipInfo.file_size).sum

/-- What `_check_zip_limits` makes of a directory. -/
def checkDirectory (infos : List ZipInfo) : Except Fault Unit :=
  if MAX_ZIP_MEMBERS < infos.length then
    .error (.zipLimit ("Archive has ".toList ++ ofNat infos.length ++ " members (limit ".toList ++
      ofNat MAX_ZIP_MEMBERS ++ ").".toList))
  else if MAX_ZIP_UNCOMPRESSED_BYTES < declared infos then
    .error (.zipLimit ("Archive declares ".toList ++ ofNat (declared infos) ++
      " bytes uncompressed (limit ".toList ++ ofNat MAX_ZIP_UNCOMPRESSED_BYTES ++ ").".toList))
  else .ok ()

/-- `_check_zip_limits`. -/
def checkZipLimits (raw_bytes : List UInt8) : Run Unit :=
  match env.infolist raw_bytes with
  | .error .badZipFile => .of (.ok ())
  | .error (.other text) => .of (.error (.zip (.other text)))
  | .ok infos => ⟨checkDirectory infos, [infos], []⟩

/-- The extension `_extract_zip` reads off a name. -/
def memberExtension (name : Str) : Str :=
  if '.' ∈ name then '.' :: afterLastDot (env.table.lower name) else []

/-- The extension `extract_text` reads off a name. -/
def fileExtension (filename : Str) : Str :=
  '.' :: if '.' ∈ filename then afterLastDot (env.table.lower filename) else []

/-- A function of `dispatch`, with one for `_extract_zip`. -/
def handle (zip : List UInt8 → Run Str) (raw_bytes : List UInt8) : Handler → Run Str
  | .txt => .of (.ok (extractTxt raw_bytes))
  | .subtitle => .of (.ok (extractSubtitle env.digits raw_bytes))
  | .zip => zip raw_bytes
  | handler => .of ((env.parse handler raw_bytes).mapError .other)

/-- The function of `dispatch` for an extension. -/
def handlerFor (ext : Str) : Except Fault Handler :=
  if ext ∈ UNSUPPORTED_LEGACY then
    .error (.other ("'".toList ++ ext ++
      ("' (legacy binary Office format) is not supported — no reliable pure-Python parser " ++
      "exists. Convert to the modern equivalent first (.docx/.pptx), e.g. via LibreOffice " ++
      "headless: " ++
      "'soffice --headless --convert-to docx yourfile.doc'").toList))
  else
    match dispatch.lookup ext with
    | none => .error (.other ("Unsupported file type '".toList ++ ext ++ "'. Supported: ".toList ++
        joinSep ", ".toList (SUPPORTED_EXTENSIONS.mergeSort fun a b => a ≤ b) ++ ".".toList))
    | some handler => .ok handler

/-- `extract_text`, with a function for `_extract_zip`. -/
def extractWith (zip : List UInt8 → Run Str) (filename : Str) (raw_bytes : List UInt8) : Run Str :=
  match handlerFor (fileExtension env filename) with
  | .error e => .of (.error e)
  | .ok handler =>
    if fileExtension env filename ∈ ZIP_BASED_EXTENSIONS then
      (checkZipLimits env raw_bytes).andThen fun _ => handle env zip raw_bytes handler
    else handle env zip raw_bytes handler

/-- The loop of `_extract_zip`: the budget left, the parts so far and the names to come. -/
def extractMembers (extract : Str → List UInt8 → Run Str) (raw_bytes : List UInt8) :
    ℕ → List Str → List Str → Run (List Str)
  | _, parts, [] => .of (.ok parts)
  | budget, parts, name :: names =>
    if name.getLast? = some '/' then extractMembers extract raw_bytes budget parts names
    else if memberExtension env name ∉ SUPPORTED_EXTENSIONS ∨
        memberExtension env name = ".zip".toList then
      extractMembers extract raw_bytes budget parts names
    else
      match env.read raw_bytes name (budget + 1) with
      | .error _ => extractMembers extract raw_bytes budget parts names
      | .ok inner_bytes =>
        if budget < inner_bytes.length then
          ⟨.error (.zipLimit ("Archive member data exceeds the ".toList ++
            ofNat MAX_ZIP_UNCOMPRESSED_BYTES ++ "-byte uncompressed limit.".toList)), [],
            [inner_bytes.length]⟩
        else
          let inner := extract name inner_bytes
          match inner.result with
          | .error (.zipLimit text) =>
            .afterMember inner_bytes.length inner (.of (.error (.zipLimit text)))
          | .error _ => .afterMember inner_bytes.length inner
              (extractMembers extract raw_bytes (budget - inner_bytes.length) parts names)
          | .ok inner_text => .afterMember inner_bytes.length inner
              (extractMembers extract raw_bytes (budget - inner_bytes.length)
                (if strip inner_text ≠ [] then
                  parts ++ ["[File: ".toList ++ name ++ "]\n".toList ++ inner_text]
                else parts) names)

/-- What `_extract_zip` makes of its parts. -/
def joinParts (parts : List Str) : Except Fault Str :=
  if parts = [] then .error (.other "No extractable text found in any file inside this zip.".toList)
  else .ok (joinSep "\n\n".toList parts)

/-- `_extract_zip`, with a function for `extract_text`. -/
def extractZip (extract : Str → List UInt8 → Run Str) (raw_bytes : List UInt8) : Run Str :=
  match env.infolist raw_bytes with
  | .error e => .of (.error (.zip e))
  | .ok infos =>
    (extractMembers env extract raw_bytes MAX_ZIP_UNCOMPRESSED_BYTES []
      (infos.map ZipInfo.filename)).andThen fun parts => .of (joinParts parts)

/-- `extract_text`. A member of a zip is no zip itself, so the inner function for `_extract_zip` is
never called (`extractText_eq`). -/
def extractText (filename : Str) (raw_bytes : List UInt8) : Run Str :=
  extractWith env (extractZip env (extractWith env fun _ => .of (.error (.other []))))
    filename raw_bytes

end

/-! ## One file -/

/-- The directory keeps to both limits. -/
def Within (infos : List ZipInfo) : Prop :=
  infos.length ≤ MAX_ZIP_MEMBERS ∧ declared infos ≤ MAX_ZIP_UNCOMPRESSED_BYTES

/-- The run raised the limit error. -/
def Run.Limited {α : Type} (r : Run α) : Prop := ∃ text, r.result = .error (.zipLimit text)

/-- The run of a file that is no `.zip`: at most one archive is opened, the error is raised just if
it exceeds the limits, and no member is read. -/
structure Single {α : Type} (r : Run α) : Prop where
  limited_iff : r.Limited ↔ ∃ infos ∈ r.opened, ¬ Within infos
  opened_le : r.opened.length ≤ 1
  read_eq : r.read = []

section

variable {env : ArchiveEnv}

theorem single_of {α : Type} {result : Except Fault α}
    (h : ∀ text, result ≠ .error (.zipLimit text)) : Single (Run.of result) where
  limited_iff := by simp [Run.Limited, Run.of, h]
  opened_le := Nat.zero_le 1
  read_eq := rfl

theorem checkDirectory_limited (infos : List ZipInfo) :
    (∃ text, checkDirectory infos = .error (.zipLimit text)) ↔ ¬ Within infos := by
  unfold checkDirectory Within
  split_ifs with hmembers hbytes <;> simp <;> omega

variable (env) in
theorem single_checkZipLimits (raw_bytes : List UInt8) : Single (checkZipLimits env raw_bytes) := by
  unfold checkZipLimits
  split
  · exact single_of fun text => nofun
  · exact single_of fun text => by simp
  · rename_i infos _
    exact ⟨by simpa [Run.Limited] using checkDirectory_limited infos, Nat.le_refl 1, rfl⟩

variable (env) in
theorem exists_handle_eq (zip : List UInt8 → Run Str) (raw_bytes : List UInt8) {handler : Handler}
    (h : handler ≠ .zip) : ∃ result, handle env zip raw_bytes handler = .of result ∧
      ∀ text, result ≠ .error (.zipLimit text) := by
  have hparse : ∀ handler text,
      (env.parse handler raw_bytes).mapError Fault.other ≠ .error (.zipLimit text) := by
    intro handler text
    cases env.parse handler raw_bytes <;> simp [Except.mapError]
  cases handler with
  | zip => exact absurd rfl h
  | txt => exact ⟨_, rfl, fun text => nofun⟩
  | subtitle => exact ⟨_, rfl, fun text => nofun⟩
  | _ => exact ⟨_, rfl, hparse _⟩

theorem limited_andThen {α β : Type} (r : Run α) (f : α → Run β) :
    (r.andThen f).Limited ↔ r.Limited ∨ ∃ a, r.result = .ok a ∧ (f a).Limited := by
  unfold Run.andThen Run.Limited
  cases r.result <;> simp

/-- A second part that opens and reads nothing. -/
theorem andThen_quiet {α β : Type} (r : Run α) (f : α → Run β)
    (h : ∀ a, (f a).opened = [] ∧ (f a).read = []) :
    (r.andThen f).opened = r.opened ∧ (r.andThen f).read = r.read := by
  unfold Run.andThen
  cases r.result with
  | error e => exact ⟨rfl, rfl⟩
  | ok a => simp [h a]

theorem handlerFor_zip {ext : Str} (h : handlerFor ext = .ok .zip) : ext = ".zip".toList := by
  have hall : dispatch.all (fun e => e.2 ≠ .zip ∨ e.1 = ".zip".toList) = true := by decide
  have hlookup : dispatch.lookup ext = some .zip := by
    unfold handlerFor at h
    split_ifs at h
    cases hget : dispatch.lookup ext with
    | none => simp [hget] at h
    | some handler => rw [hget] at h; exact congrArg some (Except.ok.inj h)
  obtain ⟨_, _, heq⟩ := List.lookup_eq_some_iff.1 hlookup
  have hmem : (ext, Handler.zip) ∈ dispatch := by
    rw [heq.1]
    exact List.mem_append_right _ List.mem_cons_self
  simpa using List.all_eq_true.1 hall _ hmem

theorem handlerFor_free {ext text : Str} : handlerFor ext ≠ .error (.zipLimit text) := by
  unfold handlerFor
  split_ifs
  · simp
  · cases dispatch.lookup ext <;> simp

/-- A file that is no `.zip` is extracted whatever the function for `_extract_zip`. -/
theorem extractWith_eq_of_ne {filename : Str} (h : fileExtension env filename ≠ ".zip".toList)
    (zip zip' : List UInt8 → Run Str) (raw_bytes : List UInt8) :
    extractWith env zip filename raw_bytes = extractWith env zip' filename raw_bytes := by
  unfold extractWith
  cases hhandler : handlerFor (fileExtension env filename) with
  | error e => rfl
  | ok handler =>
    have hne : handler ≠ .zip := fun heq => h (handlerFor_zip (heq ▸ hhandler))
    have hsame : handle env zip raw_bytes handler = handle env zip' raw_bytes handler := by
      cases handler <;> first | rfl | exact absurd rfl hne
    dsimp only
    rw [hsame]

theorem single_extractWith {filename : Str} (h : fileExtension env filename ≠ ".zip".toList)
    (zip : List UInt8 → Run Str) (raw_bytes : List UInt8) :
    Single (extractWith env zip filename raw_bytes) := by
  unfold extractWith
  cases hhandler : handlerFor (fileExtension env filename) with
  | error e =>
    refine single_of fun text heq => ?_
    rw [Except.error.inj heq] at hhandler
    exact handlerFor_free hhandler
  | ok handler =>
    have hne : handler ≠ .zip := fun heq => h (handlerFor_zip (heq ▸ hhandler))
    obtain ⟨result, hresult, hfree⟩ := exists_handle_eq env zip raw_bytes hne
    dsimp only
    rw [hresult]
    split_ifs
    · have hcheck := single_checkZipLimits env raw_bytes
      have hnot : ¬ (Run.of result).Limited := fun ⟨text, heq⟩ => hfree text heq
      obtain ⟨hopened, hread⟩ := andThen_quiet (checkZipLimits env raw_bytes)
        (fun _ => Run.of result) fun _ => ⟨rfl, rfl⟩
      refine ⟨?_, hopened ▸ hcheck.opened_le, hread.trans hcheck.read_eq⟩
      rw [limited_andThen, hcheck.limited_iff, hopened]
      simp [hnot]
    · exact single_of hfree

/-! ## The members of a zip -/

theorem fileExtension_eq {name : Str} (h : memberExtension env name ∈ SUPPORTED_EXTENSIONS) :
    fileExtension env name = memberExtension env name := by
  unfold memberExtension fileExtension at *
  split_ifs at h ⊢ with hdot
  · rfl
  · have hnil : ([] : Str) ∉ SUPPORTED_EXTENSIONS := by decide
    exact absurd h hnil

/-- The members are read under the budget: the error is raised just if an archive among them
exceeds its limits or what was read exceeds the budget. -/
structure Metered {α : Type} (budget members : ℕ) (r : Run α) : Prop where
  limited_iff : r.Limited ↔ (∃ infos ∈ r.opened, ¬ Within infos) ∨ budget < r.read.sum
  opened_le : r.opened.length ≤ members

theorem Metered.skip {α : Type} {budget members : ℕ} {r : Run α} (h : Metered budget members r) :
    Metered budget (members + 1) r :=
  ⟨h.limited_iff, Nat.le_succ_of_le h.opened_le⟩

/-- A member within the budget, then the others under what is left of it. -/
theorem Metered.afterMember {α β : Type} {budget members n : ℕ} {inner : Run α} {rest : Run β}
    (hn : n ≤ budget) (hinner : Single inner) (hfree : ¬ inner.Limited)
    (hrest : Metered (budget - n) members rest) :
    Metered budget (members + 1) (Run.afterMember n inner rest) := by
  have hopened := hinner.opened_le
  have hwithin : ¬ ∃ infos ∈ inner.opened, ¬ Within infos := fun h =>
    hfree (hinner.limited_iff.2 h)
  constructor
  · change rest.Limited ↔ _
    rw [hrest.limited_iff]
    simp only [Run.afterMember, hinner.read_eq, List.nil_append, List.mem_append, or_and_right,
      exists_or, hwithin, false_or, List.sum_cons]
    have hsum : budget - n < rest.read.sum ↔ budget < n + rest.read.sum := by omega
    rw [hsum]
  · have hlen := hrest.opened_le
    simp only [Run.afterMember, List.length_append]
    omega

variable (env) in
theorem metered_extractMembers (zip : List UInt8 → Run Str) (raw_bytes : List UInt8)
    (names : List Str) (budget : ℕ) (parts : List Str) :
    Metered budget names.length
      (extractMembers env (extractWith env zip) raw_bytes budget parts names) := by
  induction names generalizing budget parts with
  | nil => exact ⟨by simp [extractMembers, Run.Limited, Run.of], Nat.le_refl 0⟩
  | cons name names ih =>
    rw [extractMembers]
    split_ifs with hdir hext
    · exact (ih budget parts).skip
    · exact (ih budget parts).skip
    · have hne : fileExtension env name ≠ ".zip".toList := by
        rw [not_or, not_not] at hext
        rw [fileExtension_eq hext.1]
        exact hext.2
      cases env.read raw_bytes name (budget + 1) with
      | error e => exact (ih budget parts).skip
      | ok inner_bytes =>
        dsimp only
        split_ifs with hover
        · exact ⟨by simp [Run.Limited, hover], Nat.zero_le _⟩
        · have hinner := single_extractWith hne zip inner_bytes
          have hle : inner_bytes.length ≤ budget := Nat.le_of_not_lt hover
          split
          · rename_i text hresult
            have hlimited : (extractWith env zip name inner_bytes).Limited := ⟨text, hresult⟩
            obtain ⟨infos, hmem, hover⟩ := hinner.limited_iff.1 hlimited
            have hopened := hinner.opened_le
            constructor
            · refine iff_of_true ⟨text, rfl⟩ (.inl ⟨infos, ?_, hover⟩)
              exact List.mem_append_left _ hmem
            · simp only [Run.afterMember, Run.of, List.append_nil, List.length_cons]
              omega
          · rename_i hne' hresult
            refine .afterMember hle hinner (fun ⟨text, heq⟩ => hne' text ?_) (ih _ _)
            rw [hresult] at heq
            exact Except.error.inj heq
          · rename_i text hresult
            refine .afterMember hle hinner (fun ⟨text', heq⟩ => ?_) (ih _ _)
            rw [hresult] at heq
            cases heq

theorem metered_extractZip (zip : List UInt8 → Run Str) {raw_bytes : List UInt8}
    {infos : List ZipInfo} (h : env.infolist raw_bytes = .ok infos) :
    Metered MAX_ZIP_UNCOMPRESSED_BYTES infos.length
      (extractZip env (extractWith env zip) raw_bytes) := by
  have hmembers := metered_extractMembers env zip raw_bytes
    (infos.map ZipInfo.filename) MAX_ZIP_UNCOMPRESSED_BYTES []
  rw [List.length_map] at hmembers
  unfold extractZip
  rw [h]
  dsimp only
  obtain ⟨hopened, hread⟩ := andThen_quiet
    (extractMembers env (extractWith env zip) raw_bytes MAX_ZIP_UNCOMPRESSED_BYTES []
      (infos.map ZipInfo.filename)) (fun parts => Run.of (joinParts parts)) fun _ => ⟨rfl, rfl⟩
  have hjoin : ∀ parts, ¬ (Run.of (joinParts parts)).Limited := fun parts ⟨text, heq⟩ => by
    change joinParts parts = _ at heq
    unfold joinParts at heq
    split_ifs at heq
    simp at heq
  refine ⟨?_, hopened ▸ hmembers.opened_le⟩
  rw [limited_andThen, hmembers.limited_iff, hopened, hread]
  simp [hjoin]

theorem extractZip_unreadable {extract : Str → List UInt8 → Run Str} {raw_bytes : List UInt8}
    {e : ZipError} (h : env.infolist raw_bytes = .error e) :
    extractZip env extract raw_bytes = .of (.error (.zip e)) := by
  rw [extractZip, h]

/-! ## Every file -/

/-- A zip is extracted by the function it is extracted with: its members are no zips. -/
theorem extractMembers_congr (zip zip' : List UInt8 → Run Str) (raw_bytes : List UInt8)
    (names : List Str) (budget : ℕ) (parts : List Str) :
    extractMembers env (extractWith env zip) raw_bytes budget parts names =
      extractMembers env (extractWith env zip') raw_bytes budget parts names := by
  induction names generalizing budget parts with
  | nil => rfl
  | cons name names ih =>
    rw [extractMembers, extractMembers]
    split_ifs with hdir hext
    · exact ih budget parts
    · exact ih budget parts
    · have hne : fileExtension env name ≠ ".zip".toList := by
        rw [not_or, not_not] at hext
        rw [fileExtension_eq hext.1]
        exact hext.2
      simp only [ih, extractWith_eq_of_ne hne zip zip']

/-- The equation of the source: a member is extracted by `extract_text` itself. -/
theorem extractText_eq :
    extractText env = extractWith env (extractZip env (extractText env)) := by
  funext filename raw_bytes
  have hzip : ∀ zip zip', extractZip env (extractWith env zip) =
      extractZip env (extractWith env zip') := fun zip zip' => by
    funext raw_bytes
    unfold extractZip
    simp only [extractMembers_congr zip zip']
  exact congrArg (fun zip => extractWith env zip filename raw_bytes) (hzip _ _)

theorem metered_of_single {α : Type} {r : Run α} (h : Single r) (budget : ℕ) {members : ℕ} :
    Metered budget (members + 1) r := by
  refine ⟨?_, h.opened_le.trans (Nat.le_add_left 1 members)⟩
  rw [h.limited_iff, h.read_eq]
  simp

theorem checkZipLimits_of_ok {raw_bytes : List UInt8} {infos : List ZipInfo}
    (h : env.infolist raw_bytes = .ok infos) :
    checkZipLimits env raw_bytes = ⟨checkDirectory infos, [infos], []⟩ := by
  rw [checkZipLimits, h]

variable (env) in
/-- The extraction of a zip after the check of its directory. -/
theorem metered_zip (zip : List UInt8 → Run Str) (raw_bytes : List UInt8) :
    Metered MAX_ZIP_UNCOMPRESSED_BYTES (MAX_ZIP_MEMBERS + 1)
      ((checkZipLimits env raw_bytes).andThen fun _ =>
        extractZip env (extractWith env zip) raw_bytes) := by
  cases hread : env.infolist raw_bytes with
  | error e =>
    have hcheck := single_checkZipLimits env raw_bytes
    have hquiet : ∀ _ : Unit, extractZip env (extractWith env zip) raw_bytes =
        Run.of (.error (.zip e)) := fun _ => extractZip_unreadable hread
    obtain ⟨hopened, hreads⟩ := andThen_quiet (checkZipLimits env raw_bytes)
      (fun _ => extractZip env (extractWith env zip) raw_bytes)
      fun a => by rw [hquiet a]; exact ⟨rfl, rfl⟩
    refine metered_of_single ⟨?_, hopened ▸ hcheck.opened_le, hreads.trans hcheck.read_eq⟩ _
    rw [limited_andThen, hcheck.limited_iff, hopened, hquiet ()]
    simp [Run.Limited, Run.of]
  | ok infos =>
    have hmembers := metered_extractZip zip hread
    have hwithin := checkDirectory_limited infos
    rw [checkZipLimits_of_ok hread]
    unfold Run.andThen
    cases hdir : checkDirectory infos with
    | error fault =>
      -- the directory exceeds a limit, and nothing of the zip is read
      obtain ⟨text, rfl⟩ : ∃ text, fault = .zipLimit text := by
        unfold checkDirectory at hdir
        split_ifs at hdir
        · exact ⟨_, (Except.error.inj hdir).symm⟩
        · exact ⟨_, (Except.error.inj hdir).symm⟩
      exact ⟨iff_of_true ⟨text, rfl⟩ (.inl ⟨infos, List.mem_singleton_self _, hwithin.1 ⟨_, hdir⟩⟩),
        Nat.le_add_left 1 _⟩
    | ok u =>
      have hin : Within infos := by
        by_contra hout
        obtain ⟨text, htext⟩ := hwithin.2 hout
        rw [hdir] at htext
        cases htext
      constructor
      · change (extractZip env (extractWith env zip) raw_bytes).Limited ↔ _
        rw [hmembers.limited_iff]
        simp [hin]
      · have hlen := hmembers.opened_le
        have hmax := hin.1
        simp only [List.singleton_append, List.length_cons]
        omega

theorem metered_extractText (filename : Str) (raw_bytes : List UInt8) :
    Metered MAX_ZIP_UNCOMPRESSED_BYTES (MAX_ZIP_MEMBERS + 1)
      (extractText env filename raw_bytes) := by
  by_cases hext : fileExtension env filename = ".zip".toList
  · have hhandler : handlerFor ".zip".toList = .ok .zip := by decide
    have hbased : ".zip".toList ∈ ZIP_BASED_EXTENSIONS := by decide
    have heq := metered_zip env (fun _ => .of (.error (.other []))) raw_bytes
    rw [extractText, extractWith, hext, hhandler]
    dsimp only
    rw [if_pos hbased]
    exact heq
  · exact metered_of_single (single_extractWith hext _ raw_bytes) _

/-- The limit error is raised just if an archive that was opened exceeds its limits or the members
read from the zip exceed the budget. Otherwise at most `MAX_ZIP_MEMBERS + 1` archives were opened,
each of which keeps to the limits. -/
theorem extractText_limits (env : ArchiveEnv) (filename : Str) (raw_bytes : List UInt8) :
    let run := extractText env filename raw_bytes
    (run.Limited ↔ (∃ infos ∈ run.opened, ¬ Within infos) ∨
      MAX_ZIP_UNCOMPRESSED_BYTES < run.read.sum) ∧
    (¬ run.Limited → run.opened.length ≤ MAX_ZIP_MEMBERS + 1 ∧
      (run.opened.map declared).sum ≤ run.opened.length * MAX_ZIP_UNCOMPRESSED_BYTES) := by
  intro run
  have hrun : Metered _ _ run := metered_extractText filename raw_bytes
  refine ⟨hrun.limited_iff, fun hfree => ⟨hrun.opened_le, ?_⟩⟩
  have hwithin : ∀ infos ∈ run.opened, declared infos ≤ MAX_ZIP_UNCOMPRESSED_BYTES := by
    intro infos hmem
    by_contra hover
    exact hfree (hrun.limited_iff.2 (.inl ⟨infos, hmem, fun h => hover h.2⟩))
  have hsum := List.sum_le_card_nsmul (run.opened.map declared) MAX_ZIP_UNCOMPRESSED_BYTES
    fun n hn => by
      obtain ⟨infos, hmem, rfl⟩ := List.mem_map.1 hn
      exact hwithin infos hmem
  simpa using hsum

end

/-! ## Two documents in a zip -/

namespace Sample

/-- A number of `width` bytes, the lowest first. -/
def little : ℕ → ℕ → List UInt8
  | 0, _ => []
  | width + 1, n => UInt8.ofNat n :: little width (n / 256)

/-- A stored member of an archive: its name, its bytes, their checksum and the size it declares. -/
structure Member where
  name : Str
  data : List UInt8
  crc : ℕ
  declares : ℕ

def nameBytes (m : Member) : List UInt8 := m.name.map fun c => UInt8.ofNat c.toNat

def localRecord (m : Member) : List UInt8 :=
  [0x50, 0x4b, 3, 4] ++ little 2 20 ++ little 8 (33 * 2 ^ 48) ++ little 4 m.crc ++
    little 4 m.data.length ++ little 4 m.data.length ++ little 2 m.name.length ++ little 2 0 ++
    nameBytes m ++ m.data

/-- The entry of the central directory for a member whose record starts at `offset`. -/
def centralRecord (m : Member) (offset : ℕ) : List UInt8 :=
  [0x50, 0x4b, 1, 2] ++ little 2 20 ++ little 2 20 ++ little 8 (33 * 2 ^ 48) ++ little 4 m.crc ++
    little 4 m.data.length ++ little 4 m.declares ++ little 2 m.name.length ++ little 12 0 ++
    little 4 offset ++ nameBytes m

def centralFrom : ℕ → List Member → List UInt8
  | _, [] => []
  | offset, m :: ms =>
    centralRecord m offset ++ centralFrom (offset + (localRecord m).length) ms

/-- An archive whose members are stored. -/
def archive (ms : List Member) : List UInt8 :=
  let records := ms.flatMap localRecord
  let central := centralFrom 0 ms
  records ++ central ++ [0x50, 0x4b, 5, 6] ++ little 4 0 ++ little 2 ms.length ++
    little 2 ms.length ++ little 4 central.length ++ little 4 records.length ++ little 2 0

/-- The number in `width` bytes from a place on. -/
def field (raw_bytes : List UInt8) (start width : ℕ) : ℕ :=
  ((raw_bytes.drop start).take width).foldr (fun b n => b.toNat + 256 * n) 0

/-- The entries of a central directory with the places of their members. -/
def entriesFrom (raw_bytes : List UInt8) : ℕ → ℕ → List (ZipInfo × ℕ × ℕ)
  | 0, _ => []
  | count + 1, start =>
    let length := field raw_bytes (start + 28) 2
    let name := ((raw_bytes.drop (start + 46)).take length).map fun b => Char.ofNat b.toNat
    (⟨name, field raw_bytes (start + 24) 4⟩, field raw_bytes (start + 42) 4,
      field raw_bytes (start + 20) 4) :: entriesFrom raw_bytes count
        (start + 46 + length + field raw_bytes (start + 30) 2 + field raw_bytes (start + 32) 2)

/-- The directory of an archive without a comment. -/
def entries (raw_bytes : List UInt8) : Except ZipError (List (ZipInfo × ℕ × ℕ)) :=
  let tail := raw_bytes.length - 22
  if (raw_bytes.drop tail).take 4 = [0x50, 0x4b, 5, 6] then
    .ok (entriesFrom raw_bytes (field raw_bytes (tail + 10) 2) (field raw_bytes (tail + 16) 4))
  else .error .badZipFile

/-- `zipfile` on such archives, with a parser that takes no file. -/
def stored : ArchiveEnv where
  table := .ascii
  digits := ⟨Char.isDigit, fun _ h => h⟩
  infolist raw_bytes := (entries raw_bytes).map fun es => es.map Prod.fst
  read raw_bytes name n := do
    let es ← entries raw_bytes
    match es.find? fun e => e.1.filename = name with
    | none => .error (.other "no item with this name".toList)
    | some (_, offset, size) =>
      let start := offset + 30 + field raw_bytes (offset + 26) 2 + field raw_bytes (offset + 28) 2
      .ok (((raw_bytes.drop start).take size).take n)
  parse _ _ := .error "not a document".toList

/-- An archive with one empty member that declares 60 MiB. -/
def document : List UInt8 := archive [⟨"x".toList, [], 0, 60 * 1024 * 1024⟩]

/-- Two such documents and a text. -/
def twoDocuments : List UInt8 :=
  archive [⟨"a.docx".toList, document, 901211772, 100⟩,
    ⟨"b.docx".toList, document, 901211772, 100⟩,
    ⟨"c.txt".toList, [104, 105], 3633523372, 2⟩]

theorem extractText_twoDocuments : extractText stored "a.zip".toList twoDocuments =
    ⟨.ok "[File: c.txt]\nhi".toList,
      [[⟨"a.docx".toList, 100⟩, ⟨"b.docx".toList, 100⟩, ⟨"c.txt".toList, 2⟩],
        [⟨"x".toList, 60 * 1024 * 1024⟩], [⟨"x".toList, 60 * 1024 * 1024⟩]],
      [100, 100, 2]⟩ := by
  decide +kernel

/-- The text comes back although the archives declare more than 100 MiB together. -/
theorem two_documents_over :
    (extractText stored "a.zip".toList twoDocuments).result = .ok "[File: c.txt]\nhi".toList ∧
      MAX_ZIP_UNCOMPRESSED_BYTES <
        ((extractText stored "a.zip".toList twoDocuments).opened.map declared).sum := by
  rw [extractText_twoDocuments]
  exact ⟨rfl, by decide⟩

end Sample

end RagLeap.Rag
