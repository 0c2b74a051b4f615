import RagLeap.Security.AuditLog

/-!
# Records and chains

What the functions of the audit log have in common: the canonical text of a parsed value
(`canon_ofValue`), the lines of a file, and the chain of records `verify` accepts (`run`), with
what it knows of each record (`IsRecord`).
-/

namespace RagLeap.Security

open JsonText

variable {F : Type} (env : AuditEnv F)

/-! ## Canonical text of parsed values -/

theorem nameItems_str (members : List (PyStr × Value F)) :
    nameItems env (members.map fun m => (.str m.1, m.2)) = some members := by
  induction members with
  | nil => rfl
  | cons m members ih =>
    rw [List.map_cons, nameItems, ih]
    rfl

theorem sortItems_str (members : List (PyStr × Value F)) :
    sortItems env (members.map fun m => (.str m.1, m.2)) =
      some ((Value.sortMembers members).map fun m => (.str m.1, m.2)) := by
  have hall : (members.map fun m => ((.str m.1, m.2) : Key F × Value F)).all
      (fun e => e.1.isStr) = true := by
    rw [List.all_map]
    exact List.all_eq_true.2 fun _ _ => rfl
  rw [sortItems, if_pos hall, Value.sortMembers]
  exact congrArg some (List.map_insertionSort _ _ (fun m : PyStr × Value F => (Key.str m.1, m.2))
    members fun _ _ _ _ => Iff.rfl).symm

/-- Serialising a parsed value sorts its members. -/
theorem valueOf_ofValue (t : Value F) : valueOf env (ofValue t) = some t.sorted := by
  induction t using Value.ind with
  | atom a =>
    rw [Value.sorted, Value.map_atom]
    rfl
  | str s =>
    rw [Value.sorted, Value.map_str]
    rfl
  | arr items ih =>
    have hitems : valuesOf env (ofValues items) = some (items.map Value.sorted) := by
      induction items with
      | nil => rfl
      | cons t items ihitems =>
        rw [ofValues, valuesOf, ih t List.mem_cons_self,
          ihitems fun u hu => ih u (List.mem_cons_of_mem t hu)]
        rfl
    rw [ofValue, valueOf, hitems, Value.sorted, Value.map_arr]
    rfl
  | obj members ih =>
    have hitems : itemsOf env (ofMembers members) =
        some ((members.map fun m => (m.1, m.2.sorted)).map fun m => (.str m.1, m.2)) := by
      induction members with
      | nil => rfl
      | cons m members ihmembers =>
        rw [ofMembers, itemsOf, ih m List.mem_cons_self,
          ihmembers fun u hu => ih u (List.mem_cons_of_mem m hu)]
        rfl
    rw [ofValue, valueOf, hitems, Option.bind_some, sortItems_str, Option.bind_some,
      nameItems_str, Value.sorted, Value.map_obj]
    rfl

/-- The bytes of a printed value. -/
def encoded (t : Value F) : List UInt8 := PyStr.encodeAscii (print env.toFloats t)

theorem plain_print (t : Value F) : ∀ c ∈ print env.toFloats t, PyStr.isPlain c = true :=
  fun c hc => isPlain_of_isPrintable (isPrintable_print env.toFloats t c hc)

theorem canon_ofValue (t : Value F) : canon env (ofValue t) = some (encoded env t.sorted) := by
  rw [canon, valueOf_ofValue]
  rfl

theorem digest_ofValue (t : Value F) :
    digest env (ofValue t) = some (hexdigest (env.sha256 (encoded env t.sorted))) := by
  rw [digest, canon_ofValue]
  rfl

theorem print_eq_of_encoded_eq {t u : Value F} (h : encoded env t = encoded env u) :
    print env.toFloats t = print env.toFloats u := by
  have ht := PyStr.decode_encodeAscii (plain_print env t)
  have hu := PyStr.decode_encodeAscii (plain_print env u)
  unfold encoded at h
  rw [h, hu] at ht
  exact (Option.some.inj ht).symm

theorem newline_not_mem_encoded (t : Value F) : newline ∉ encoded env t := by
  intro h
  obtain ⟨c, hc, hbreak⟩ := List.mem_map.1 h
  have hplain := plain_print env t c hc
  have hval := (PyStr.ofNat_toNat_of_isPlain hplain).2.2
  have hprint := isPrintable_iff.1 (isPrintable_print env.toFloats t c hc)
  rw [hbreak] at hval
  have : newline.toNat = 10 := rfl
  omega

/-- `json.loads` of a line `append` wrote, with its line break. -/
theorem loads_encoded_newline (t : Value F) :
    loads env (encoded env t ++ [newline]) = some t.join.collapse := by
  have hbytes : encoded env t ++ [newline] =
      PyStr.encodeAscii (print env.toFloats t ++ [ch '\n']) := by
    rw [PyStr.encodeAscii, List.map_append]
    rfl
  have hplain : ∀ c ∈ print env.toFloats t ++ [ch '\n'], PyStr.isPlain c = true := by
    intro c hc
    rcases List.mem_append.1 hc with hc | hc
    · exact plain_print env t c hc
    · rw [List.mem_singleton.1 hc]
      rfl
  rw [loads, hbytes, PyStr.decode_encodeAscii hplain, Option.bind_some, parse_break, parse_print]

theorem hexDigit_injective {c d : ℕ} (hc : c < 16) (hd : d < 16) (h : hexDigit c = hexDigit d) :
    c = d := by
  have hval := hexVal_hexDigit c hc
  rw [h, hexVal_hexDigit d hd] at hval
  exact (Option.some.inj hval).symm

theorem hexdigest_injective : Function.Injective hexdigest := by
  intro b
  induction b with
  | nil =>
    intro b' h
    cases b' with
    | nil => rfl
    | cons a b' => exact nomatch h
  | cons a b ih =>
    intro b' h
    cases b' with
    | nil => exact nomatch h
    | cons a' b' =>
      simp only [hexdigest, List.flatMap_cons, List.cons_append, List.nil_append,
        List.cons.injEq] at h
      have hlt := a.toNat_lt
      have hlt' := a'.toNat_lt
      have hhigh := hexDigit_injective (by omega) (by omega) h.1
      have hlow := hexDigit_injective (by omega) (by omega) h.2.1
      rw [UInt8.toNat_inj.1 (show a.toNat = a'.toNat by omega), ih h.2.2]

theorem plain_hexdigest (b : List UInt8) : ∀ c ∈ hexdigest b, isPrintable c = true := by
  intro c hc
  obtain ⟨a, -, ha⟩ := List.mem_flatMap.1 hc
  have hlt := a.toNat_lt
  rcases List.mem_pair.1 ha with rfl | rfl
  · exact isPrintable_hexDigit _ (by omega)
  · exact isPrintable_hexDigit _ (by omega)

theorem digest_eq_iff {env : AuditEnv F} (hsha : Function.Injective env.sha256) {t u : Value F} :
    hexdigest (env.sha256 (encoded env t)) = hexdigest (env.sha256 (encoded env u)) ↔
      encoded env t = encoded env u :=
  (hexdigest_injective.comp hsha).eq_iff

/-! ## Lines -/

theorem flatten_lines (file : List UInt8) : (lines file).flatten = file := by
  induction file with
  | nil => rfl
  | cons b file ih =>
    unfold lines
    split_ifs with hb
    · rw [List.flatten_cons, ih, hb]
      rfl
    · cases hlines : lines file with
      | nil =>
        rw [hlines] at ih
        rw [← ih]
        rfl
      | cons line rest =>
        rw [hlines] at ih
        simpa using ih

theorem lines_eq_nil_iff {file : List UInt8} : lines file = [] ↔ file = [] := by
  constructor
  · intro h
    rw [← flatten_lines file, h]
    rfl
  · rintro rfl
    rfl

/-- A file that stops at the end of a line. -/
def Complete (file : List UInt8) : Prop := ∀ b ∈ file.getLast?, b = newline

theorem lines_newline_cons (file : List UInt8) :
    lines (newline :: file) = [newline] :: lines file := by
  rw [lines, if_pos rfl]

theorem lines_cons_of_ne {b : UInt8} (hb : b ≠ newline) {file line : List UInt8}
    {rest : List (List UInt8)} (h : lines file = line :: rest) :
    lines (b :: file) = (b :: line) :: rest := by
  rw [lines, if_neg hb, h]

theorem lines_append {file : List UInt8} (h : Complete file) (rest : List UInt8) :
    lines (file ++ rest) = lines file ++ lines rest := by
  induction file with
  | nil => rfl
  | cons b file ih =>
    by_cases hb : b = newline
    · have htail : Complete file := by
        intro a ha
        cases file with
        | nil => exact nomatch ha
        | cons c file => exact h a ha
      rw [hb, List.cons_append, lines_newline_cons, lines_newline_cons, ih htail, List.cons_append]
    · cases file with
      | nil => exact absurd (h b rfl) hb
      | cons c file =>
        have ih := ih fun a ha => h a ha
        cases hlines : lines (c :: file) with
        | nil => exact absurd (lines_eq_nil_iff.1 hlines) (List.cons_ne_nil c file)
        | cons line rest' =>
          rw [hlines] at ih
          rw [lines_cons_of_ne hb hlines, List.cons_append, lines_cons_of_ne hb ih]
          rfl

theorem lines_line {line : List UInt8} (h : newline ∉ line) :
    lines (line ++ [newline]) = [line ++ [newline]] := by
  induction line with
  | nil => rfl
  | cons b line ih =>
    rw [List.mem_cons, not_or] at h
    rw [List.cons_append, lines, if_neg (Ne.symm h.1), ih h.2]

/-- What `verify` knows of a record it accepts at the place `count + 1` after a record with the
hash `prev`. -/
structure IsRecord (prev : PyStr) (count : ℕ) (raw : List UInt8)
    (rec : List (PyStr × Value F)) (hash : PyStr) : Prop where
  size : raw.length ≤ maxRecordBytes + 1
  complete : raw.getLast? = some newline
  read : loads env raw = some (.obj rec)
  keys : hasKeys rec = true
  seq : seqIs env (rec.lookup Name.seq.text) (count + 1) = true
  link : asStr? (rec.lookup Name.prev.text) = some prev
  own : asStr? (rec.lookup Name.hash.text) = some hash
  ascii : isAsciiStr hash = true
  content : digest env (ofValue (.obj (body rec))) = some hash

variable {env}

theorem checkLine_eq_record_iff {prev hash : PyStr} {count : ℕ} {raw : List UInt8} :
    checkLine env prev count raw = .record hash ↔ ∃ rec, IsRecord env prev count raw rec hash := by
  constructor
  · intro h
    unfold checkLine at h
    split_ifs at h with hsize hcomplete
    cases hread : loads env raw with
    | none =>
      rw [hread] at h
      exact nomatch h
    | some v =>
      rw [hread] at h
      cases v with
      | obj rec =>
        simp only at h
        split_ifs at h with hkeys hseq hprev
        cases hhash : asStr? (rec.lookup Name.hash.text) with
        | none =>
          rw [hhash] at h
          exact nomatch h
        | some h' =>
          cases hdigest : digest env (ofValue (.obj (body rec))) with
          | none =>
            rw [hhash, hdigest] at h
            exact nomatch h
          | some d =>
            rw [hhash, hdigest] at h
            simp only at h
            split_ifs at h with hascii heq
            obtain rfl := Check.record.inj h
            exact ⟨rec, not_lt.1 hsize, not_not.1 hcomplete, hread, hkeys, hseq, not_not.1 hprev,
              hhash, hascii, heq ▸ hdigest⟩
      | _ => exact nomatch h
  · rintro ⟨rec, h⟩
    unfold checkLine
    rw [if_neg (not_lt.2 h.size), if_neg (not_not.2 h.complete), h.read]
    simp only
    rw [if_neg (not_not.2 h.keys), if_neg (not_not.2 h.seq), if_neg (not_not.2 h.link), h.own,
      h.content]
    simp only
    rw [if_neg (not_not.2 h.ascii), if_pos trivial]

variable (env)

/-- The hash and the number of the last record of a chain of lines. -/
def run (prev : PyStr) (count : ℕ) : List (List UInt8) → Option (PyStr × ℕ)
  | [] => some (prev, count)
  | raw :: rest =>
    match checkLine env prev count raw with
    | .record h => run h (count + 1) rest
    | _ => none

variable {env}

theorem run_append {prev : PyStr} {count : ℕ} (ls rest : List (List UInt8)) :
    run env prev count (ls ++ rest) =
      (run env prev count ls).bind fun r => run env r.1 r.2 rest := by
  induction ls generalizing prev count with
  | nil => rfl
  | cons raw ls ih =>
    rw [List.cons_append, run, run]
    cases checkLine env prev count raw with
    | record h => exact ih
    | bad e => rfl
    | raises => rfl

theorem run_length {prev hash : PyStr} {count n : ℕ} {ls : List (List UInt8)}
    (h : run env prev count ls = some (hash, n)) : n = count + ls.length := by
  induction ls generalizing prev count with
  | nil =>
    obtain ⟨-, rfl⟩ := Prod.mk.inj (Option.some.inj h)
    rfl
  | cons raw ls ih =>
    rw [run] at h
    split at h
    · rw [ih h, List.length_cons]
      omega
    · exact nomatch h

/-- The last line of a chain is a record after the chain without it. -/
theorem run_concat_iff {prev hash : PyStr} {count n : ℕ} {ls : List (List UInt8)}
    {raw : List UInt8} : run env prev count (ls ++ [raw]) = some (hash, n) ↔
      ∃ hash' m rec, run env prev count ls = some (hash', m) ∧ n = m + 1 ∧
        IsRecord env hash' m raw rec hash := by
  rw [run_append, Option.bind_eq_some_iff]
  constructor
  · rintro ⟨⟨hash', m⟩, hls, hraw⟩
    rw [run] at hraw
    split at hraw
    · rename_i h hcheck
      obtain ⟨rec, hrec⟩ := checkLine_eq_record_iff.1 hcheck
      obtain ⟨rfl, rfl⟩ := Prod.mk.inj (Option.some.inj hraw)
      exact ⟨hash', m, rec, hls, rfl, hrec⟩
    · exact nomatch hraw
  · rintro ⟨hash', m, rec, hls, rfl, hrec⟩
    refine ⟨(hash', m), hls, ?_⟩
    rw [run, checkLine_eq_record_iff.2 ⟨rec, hrec⟩]
    rfl

theorem scan_ok_iff {prev hash : PyStr} {count line n : ℕ} {e : Option VerifyError}
    {l : Option ℕ} {ls : List (List UInt8)} :
    scan env prev count line ls = some ⟨true, n, hash, e, l⟩ ↔
      run env prev count ls = some (hash, n) ∧ e = none ∧ l = none := by
  induction ls generalizing prev count line with
  | nil =>
    rw [scan, run]
    constructor
    · intro h
      cases h
      exact ⟨rfl, rfl, rfl⟩
    · rintro ⟨h, rfl, rfl⟩
      cases h
      rfl
  | cons raw ls ih =>
    rw [scan, run]
    cases checkLine env prev count raw with
    | record h => exact ih
    | bad e => simp
    | raises => simp

variable (env)

/-- `verify` accepts the file, with `n` records and this last hash. -/
def Accepts (file : List UInt8) (n : ℕ) (hash : PyStr) : Prop :=
  verify env file none none = some ⟨true, n, hash, none, none⟩

variable {env}

theorem accepts_iff {file : List UInt8} {n : ℕ} {hash : PyStr} :
    Accepts env file n hash ↔ run env genesis 0 (lines file) = some (hash, n) := by
  have hscan : Accepts env file n hash ↔
      scan env genesis 0 1 (lines file) = some ⟨true, n, hash, none, none⟩ := by
    unfold Accepts verify
    cases scan env genesis 0 1 (lines file) with
    | none => exact iff_of_false nofun nofun
    | some r => by_cases hok : r.ok <;> simp
  rw [hscan, scan_ok_iff]
  simp

/-- With the last hash as the anchor, `verify` accepts the files that end in it. -/
theorem verify_anchor_iff {file : List UInt8} {n : ℕ} {hash anchor : PyStr}
    (hascii : isAsciiStr anchor = true) :
    verify env file none (some anchor) = some ⟨true, n, hash, none, none⟩ ↔
      Accepts env file n hash ∧ hash = anchor := by
  unfold Accepts verify
  cases scan env genesis 0 1 (lines file) with
  | none => exact iff_of_false nofun fun h => nomatch h.1
  | some r =>
    obtain ⟨ok, m, last, e, l⟩ := r
    cases ok with
    | false => simp
    | true =>
      by_cases hlast : isAsciiStr last = true
      · by_cases heq : anchor = last
        · simp [hlast, heq]
          grind
        · simp [hascii, hlast, heq]
          grind
      · have hne : last ≠ anchor := fun h => hlast (h ▸ hascii)
        simp [hlast]
        grind

theorem complete_flatten_of_run {prev : PyStr} {count : ℕ} {ls : List (List UInt8)}
    {r : PyStr × ℕ} (h : run env prev count ls = some r) : Complete ls.flatten := by
  rcases List.eq_nil_or_concat ls with rfl | ⟨ls, raw, rfl⟩
  · exact fun _ h => nomatch h
  · rw [List.concat_eq_append] at h ⊢
    obtain ⟨hash', m, rec, -, -, hrec⟩ := run_concat_iff.1 h
    intro b hb
    rw [List.flatten_append, List.flatten_singleton, List.getLast?_append, hrec.complete] at hb
    exact (Option.some.inj hb).symm

theorem Accepts.complete {file : List UInt8} {n : ℕ} {hash : PyStr}
    (h : Accepts env file n hash) : Complete file := by
  rw [← flatten_lines file]
  exact complete_flatten_of_run (accepts_iff.1 h)

end RagLeap.Security
