import RagLeap.Foundations.Base64
import RagLeap.Foundations.Utf8
import RagLeap.Integrations.McpPolicy

/-!
# Header values

`_encode_header_value` sends a name or an argument in a header as it is, or as the Base64 of its
UTF-8 between two marks. A value that looks like such a form is never sent as it is, so the reader
of a header gets the value back, and two values never share a header.
-/

namespace RagLeap.Integrations

open PyStr

/-- `base64.b64encode(s.encode("utf-8")).decode("ascii")`; none where a surrogate has no UTF-8. -/
def base64Text (s : PyStr) : Option PyStr :=
  if s.any isSurrogate then none else some (Base64.encode (encodeUtf8 s))

/-- The client with the library's Base64. -/
def Lib.withBase64 {F : Type} (lib : Lib F) : Lib F := { lib with base64 := base64Text }

/-- The marks around an encoded value. -/
def MARK : PyStr := lit "=?base64?"

def MARK_END : PyStr := lit "?="

/-- What the reader of a header takes it for: what stands between the marks, decoded, or the text
itself where there are none. -/
def decodeHeaderValue (header : PyStr) : Option PyStr :=
  if MARK.isPrefixOf header && MARK_END.isSuffixOf header then
    (Base64.decode ((header.drop MARK.length).dropLast.dropLast)).map decodeReplace
  else some header

/-- A header that can be sent: visible ASCII and inner spaces. -/
structure Sendable (header : PyStr) : Prop where
  visible : ∀ c ∈ header, 0x20 ≤ c.val ∧ c.val ≤ 0x7E
  head : header.head? ≠ some (ch ' ')
  last : header.getLast? ≠ some (ch ' ')

/-- A marked text loses its marks. -/
theorem drop_marks (b : PyStr) :
    ((MARK ++ b ++ MARK_END).drop MARK.length).dropLast.dropLast = b := by
  have hend : MARK_END = [ch '?', ch '='] := rfl
  rw [List.append_assoc, List.drop_left, hend, show b ++ [ch '?', ch '='] =
    (b ++ [ch '?']) ++ [ch '='] by simp, List.dropLast_concat, List.dropLast_concat]

theorem isPrefixOf_marked (b : PyStr) : MARK.isPrefixOf (MARK ++ b ++ MARK_END) = true := by
  rw [List.isPrefixOf_iff_prefix, List.append_assoc]
  exact List.prefix_append MARK (b ++ MARK_END)

theorem isSuffixOf_marked (b : PyStr) : MARK_END.isSuffixOf (MARK ++ b ++ MARK_END) = true := by
  rw [List.isSuffixOf_iff_suffix]
  exact List.suffix_append (MARK ++ b) MARK_END

/-- The bytes of a text without surrogates are read back. -/
theorem decodeReplace_encodeUtf8 {s : PyStr} (hs : ∀ c ∈ s, isSurrogate c = false) :
    decodeReplace (encodeUtf8 s) = s := by
  have hcut := decodeReplace_take hs (encodeUtf8 s).length
  rw [List.take_length] at hcut
  rcases cut_cases (encodeUtf8 s).length s with ⟨-, h⟩ | ⟨h, -⟩
  · rw [hcut, h]
  · exact absurd h (lt_irrefl _)

/-- A marked Base64 text can be sent. -/
theorem sendable_marked (bytes : List UInt8) :
    Sendable (MARK ++ Base64.encode bytes ++ MARK_END) where
  visible := by
    have hmarks : (MARK ++ MARK_END).all (fun c => 0x20 ≤ c.val && c.val ≤ 0x7E) = true := rfl
    simp only [List.all_eq_true, List.mem_append, Bool.and_eq_true, decide_eq_true_eq] at hmarks
    intro c hc
    rw [List.mem_append, List.mem_append] at hc
    rcases hc with (hc | hc) | hc
    · exact hmarks c (.inl hc)
    · obtain ⟨hlow, hhigh⟩ := Base64.visible_encode bytes c hc
      exact ⟨hlow.le, hhigh⟩
    · exact hmarks c (.inr hc)
  head := by
    intro h
    rw [List.append_assoc, List.head?_append_of_ne_nil MARK (by unfold MARK lit; decide)] at h
    exact absurd h (by unfold MARK lit; decide)
  last := by
    intro h
    rw [List.getLast?_append_of_ne_nil _ (by unfold MARK_END lit; decide)] at h
    exact absurd h (by unfold MARK_END lit; decide)

variable {F : Type} (lib : Lib F)

/-- The two forms of a header: the value itself, which has no marks, or its Base64 between them. -/
theorem encodeHeaderValue_cases {value : PyStr} (hvalue : ∀ c ∈ value, isSurrogate c = false) :
    encodeHeaderValue lib.withBase64 value = some value ∧ Sendable value ∧
        (MARK.isPrefixOf value && MARK_END.isSuffixOf value) = false ∨
      encodeHeaderValue lib.withBase64 value =
        some (MARK ++ Base64.encode (encodeUtf8 value) ++ MARK_END) := by
  have hbase : lib.withBase64.base64 value = some (Base64.encode (encodeUtf8 value)) := by
    have hany : ¬ value.any isSurrogate = true := by
      simpa using hvalue
    exact if_neg hany
  unfold encodeHeaderValue
  dsimp only
  split_ifs with hplain
  · left
    simp only [Bool.and_eq_true, List.all_eq_true, decide_eq_true_eq, Bool.not_eq_true'] at hplain
    obtain ⟨⟨⟨hvisible, hhead⟩, hlast⟩, hmarks⟩ := hplain
    exact ⟨rfl, ⟨hvisible, hhead, hlast⟩, hmarks⟩
  · right
    rw [hbase]
    rfl

/-- The header of a value is read back as the value. -/
theorem decode_encodeHeaderValue {value header : PyStr}
    (hvalue : ∀ c ∈ value, isSurrogate c = false)
    (h : encodeHeaderValue lib.withBase64 value = some header) :
    decodeHeaderValue header = some value := by
  unfold decodeHeaderValue
  rcases encodeHeaderValue_cases lib hvalue with ⟨hplain, -, hmarks⟩ | hcoded
  · obtain rfl : value = header := Option.some.inj (hplain.symm.trans h)
    rw [hmarks]
    rfl
  · obtain rfl := Option.some.inj (hcoded.symm.trans h)
    rw [isPrefixOf_marked, isSuffixOf_marked, drop_marks, Base64.decode_encode]
    exact congrArg some (decodeReplace_encodeUtf8 hvalue)

/-- **Header values are a faithful code**: every text without surrogates has a header that can be
sent, the header is read back as the text, and no other text has it. -/
theorem encodeHeaderValue_faithful {value : PyStr} (hvalue : ∀ c ∈ value, isSurrogate c = false) :
    ∃ header, encodeHeaderValue lib.withBase64 value = some header ∧ Sendable header ∧
      decodeHeaderValue header = some value ∧
      ∀ other : PyStr, (∀ c ∈ other, isSurrogate c = false) →
        encodeHeaderValue lib.withBase64 other = some header → other = value := by
  obtain ⟨header, hheader, hsend⟩ : ∃ header, encodeHeaderValue lib.withBase64 value = some header ∧
      Sendable header := by
    rcases encodeHeaderValue_cases lib hvalue with ⟨hplain, hsend, -⟩ | hcoded
    · exact ⟨value, hplain, hsend⟩
    · exact ⟨_, hcoded, sendable_marked _⟩
  refine ⟨header, hheader, hsend, decode_encodeHeaderValue lib hvalue hheader, ?_⟩
  intro other hother hsame
  have hback := decode_encodeHeaderValue lib hother hsame
  rw [decode_encodeHeaderValue lib hvalue hheader] at hback
  exact (Option.some.inj hback).symm

theorem encodeHeaderValue_faithful_edge :
    (∀ c ∈ lit " é", isSurrogate c = false) ∧
      ∃ header, encodeHeaderValue plainLib.withBase64 (lit " é") = some header ∧ Sendable header ∧
        decodeHeaderValue header = some (lit " é") ∧
        ∀ other : PyStr, (∀ c ∈ other, isSurrogate c = false) →
          encodeHeaderValue plainLib.withBase64 other = some header → other = lit " é" := by
  have hvalue : ∀ c ∈ lit " é", isSurrogate c = false := by
    simp [lit, text, isSurrogate, isHigh, isLow, ch]
  exact ⟨hvalue, encodeHeaderValue_faithful plainLib hvalue⟩

end RagLeap.Integrations
