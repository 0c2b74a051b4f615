import Mathlib.Data.List.TakeDrop
import RagLeap.Foundations.BigEndian

/-!
# The log stream of a container

`demux` of `sandbox/runner.py` splits the log of a container, in which the daemon writes each piece
of output as a frame: the stream, three zeros, the length in four bytes, and the bytes themselves.

`demuxFrom_frame` is what the loop does at a frame, and `demux_framed` what comes of a sequence of
frames: each stream comes back whole, and of a log that breaks off anywhere a beginning of it.
-/

namespace RagLeap.Sandbox

open BigEndian

/-! ## The loop -/

/-- The `while` loop from the place `i` on. -/
def demuxFrom (buf : List UInt8) (i : ℕ) (out err : List UInt8) : List UInt8 × List UInt8 :=
  if h : i + 8 ≤ buf.length then
    let stream := buf[i]
    let size := ofBytes ((buf.drop (i + 4)).take 4)
    let chunk := (buf.drop (i + 8)).take size
    if stream = 2 then demuxFrom buf (i + (8 + size)) out (err ++ chunk)
    else demuxFrom buf (i + (8 + size)) (out ++ chunk) err
  else (out, err)
termination_by buf.length - i
decreasing_by all_goals omega

def demux (buf : List UInt8) : List UInt8 × List UInt8 := demuxFrom buf 0 [] []

/-! ## Frames -/

inductive Stream
  | stdout
  | stderr
  deriving DecidableEq

def Stream.code : Stream → UInt8
  | stdout => 1
  | stderr => 2

/-- A piece of output; its length has to fit into the header. -/
structure Frame where
  stream : Stream
  payload : List UInt8
  fits : payload.length < 256 ^ 4

def Frame.header (f : Frame) : List UInt8 :=
  f.stream.code :: 0 :: 0 :: 0 :: toBytes 4 f.payload.length

def Frame.bytes (f : Frame) : List UInt8 := f.header ++ f.payload

/-- The log of these frames. -/
def framed (fs : List Frame) : List UInt8 := fs.flatMap Frame.bytes

/-- What was written to a stream. -/
def printed (s : Stream) (fs : List Frame) : List UInt8 :=
  (fs.filter (·.stream = s)).flatMap Frame.payload

/-- What a frame adds to a stream. -/
def Frame.on (f : Frame) (s : Stream) : List UInt8 := if f.stream = s then f.payload else []

theorem printed_cons (s : Stream) (f : Frame) (fs : List Frame) :
    printed s (f :: fs) = f.on s ++ printed s fs := by
  rw [printed, Frame.on, List.filter_cons]
  simp only [decide_eq_true_eq]
  split_ifs
  · rfl
  · rfl

/-! ## The header -/

@[simp] theorem Frame.length_header (f : Frame) : f.header.length = 8 := by
  simp [header]

theorem Frame.length_bytes (f : Frame) : f.bytes.length = 8 + f.payload.length := by
  rw [bytes, List.length_append, length_header]

/-- At a header, with some of the payload behind it: the payload as far as it is there goes to its
stream. -/
theorem demuxFrom_header (f : Frame) (pre tail : List UInt8) (out err : List UInt8) :
    demuxFrom (pre ++ (f.header ++ tail)) pre.length out err =
      let chunk := tail.take f.payload.length
      demuxFrom (pre ++ (f.header ++ tail)) (pre.length + (8 + f.payload.length))
        (if f.stream = .stdout then out ++ chunk else out)
        (if f.stream = .stderr then err ++ chunk else err) := by
  have hlen : pre.length + 8 ≤ (pre ++ (f.header ++ tail)).length := by
    simp only [List.length_append, Frame.length_header]
    omega
  have hstream : (pre ++ (f.header ++ tail))[pre.length] = f.stream.code := by
    rw [List.getElem_append_right le_rfl]
    simp [Frame.header]
  have hsize : ofBytes (((pre ++ (f.header ++ tail)).drop (pre.length + 4)).take 4) =
      f.payload.length := by
    rw [← List.drop_drop, List.drop_left]
    have hfour : ((f.header ++ tail).drop 4).take 4 = toBytes 4 f.payload.length := by
      rw [Frame.header]
      exact List.take_left' (length_toBytes _ _)
    rw [hfour, ofBytes_toBytes f.fits]
  have hchunk : (pre ++ (f.header ++ tail)).drop (pre.length + 8) = tail := by
    rw [← List.drop_drop, List.drop_left, List.drop_left' f.length_header]
  rw [demuxFrom, dif_pos hlen, hstream, hsize, hchunk]
  dsimp only
  cases f.stream with
  | stdout => rfl
  | stderr => rfl

/-! ## One frame and many -/

/-- A whole frame is read, and the loop goes on behind it. -/
theorem demuxFrom_frame (f : Frame) (pre rest : List UInt8) (out err : List UInt8) :
    demuxFrom (pre ++ (f.bytes ++ rest)) pre.length out err =
      demuxFrom (pre ++ f.bytes ++ rest) (pre ++ f.bytes).length (out ++ f.on .stdout)
        (err ++ f.on .stderr) := by
  have hlength : (pre ++ f.bytes).length = pre.length + (8 + f.payload.length) := by
    rw [List.length_append, f.length_bytes]
  rw [hlength, List.append_assoc, Frame.bytes, List.append_assoc, demuxFrom_header]
  simp only [List.take_left, Frame.on]
  cases f.stream with
  | stdout => simp
  | stderr => simp

/-- **Frames in front of a log** are read one after the other, whatever stands behind them. -/
theorem demuxFrom_framed (fs : List Frame) (pre rest : List UInt8) (out err : List UInt8) :
    demuxFrom (pre ++ (framed fs ++ rest)) pre.length out err =
      demuxFrom (pre ++ framed fs ++ rest) (pre ++ framed fs).length (out ++ printed .stdout fs)
        (err ++ printed .stderr fs) := by
  induction fs generalizing pre out err with
  | nil => simp [framed, printed]
  | cons f fs ih =>
    have hcons : framed (f :: fs) = f.bytes ++ framed fs := List.flatMap_cons
    rw [hcons, List.append_assoc, demuxFrom_frame, ih, printed_cons, printed_cons,
      ← List.append_assoc out, ← List.append_assoc err, ← List.append_assoc pre]

/-- A log that ends before the next header does is read to its end. -/
theorem demuxFrom_end {buf : List UInt8} {i : ℕ} (h : buf.length < i + 8) (out err : List UInt8) :
    demuxFrom buf i out err = (out, err) := by
  rw [demuxFrom, dif_neg (by omega)]

/-- A frame that breaks off leaves a beginning of its payload. -/
theorem demuxFrom_cut (f : Frame) (pre out err : List UInt8) (n : ℕ) :
    ∃ p, p <+: f.on .stdout ∧ ∃ q, q <+: f.on .stderr ∧
      demuxFrom (pre ++ f.bytes.take n) pre.length out err = (out ++ p, err ++ q) := by
  rcases lt_or_ge n 8 with h8 | h8
  · refine ⟨[], List.nil_prefix, [], List.nil_prefix, ?_⟩
    rw [demuxFrom_end (by simp; omega), List.append_nil, List.append_nil]
  · have hcut : f.bytes.take n = f.header ++ f.payload.take (n - 8) := by
      rw [Frame.bytes, List.take_append, f.length_header,
        List.take_of_length_le (by simpa using h8)]
    have hshort : (f.payload.take (n - 8)).take f.payload.length = f.payload.take (n - 8) :=
      List.take_of_length_le (by simp)
    have hprefix : f.payload.take (n - 8) <+: f.payload := List.take_prefix _ _
    rw [hcut, demuxFrom_header, hshort]
    dsimp only
    rw [demuxFrom_end (by simp; omega)]
    cases hs : f.stream with
    | stdout =>
      have hp : f.payload.take (n - 8) <+: f.on .stdout := by simpa [Frame.on, hs] using hprefix
      exact ⟨_, hp, [], List.nil_prefix, by simp⟩
    | stderr =>
      have hq : f.payload.take (n - 8) <+: f.on .stderr := by simpa [Frame.on, hs] using hprefix
      exact ⟨[], List.nil_prefix, _, hq, by simp⟩

/-! ## Whole logs and cut ones -/

/-- **A log that breaks off anywhere** gives a beginning of each stream. -/
theorem demuxFrom_take (fs : List Frame) (pre out err : List UInt8) (n : ℕ) :
    ∃ p, p <+: printed .stdout fs ∧ ∃ q, q <+: printed .stderr fs ∧
      demuxFrom (pre ++ (framed fs).take n) pre.length out err = (out ++ p, err ++ q) := by
  induction fs generalizing pre out err n with
  | nil =>
    refine ⟨[], List.nil_prefix, [], List.nil_prefix, ?_⟩
    rw [demuxFrom_end (by simp [framed]), List.append_nil, List.append_nil]
  | cons f fs ih =>
    have hcons : framed (f :: fs) = f.bytes ++ framed fs := List.flatMap_cons
    rw [hcons, List.take_append, printed_cons, printed_cons]
    rcases le_or_gt n f.bytes.length with hn | hn
    · obtain ⟨p, hp, q, hq, hcut⟩ := demuxFrom_cut f pre out err n
      refine ⟨p, hp.trans (List.prefix_append _ _), q, hq.trans (List.prefix_append _ _), ?_⟩
      rw [Nat.sub_eq_zero_of_le hn, List.take_zero, List.append_nil, hcut]
    · obtain ⟨p, hp, q, hq, hrest⟩ := ih (pre ++ f.bytes) (out ++ f.on .stdout)
        (err ++ f.on .stderr) (n - f.bytes.length)
      refine ⟨f.on .stdout ++ p, (List.prefix_append_right_inj _).2 hp, f.on .stderr ++ q,
        (List.prefix_append_right_inj _).2 hq, ?_⟩
      rw [List.take_of_length_le hn.le, demuxFrom_frame, hrest, List.append_assoc,
        List.append_assoc]

/-- **The log of frames gives each stream back whole**, and cut off anywhere a beginning of each. -/
theorem demux_framed (fs : List Frame) :
    demux (framed fs) = (printed .stdout fs, printed .stderr fs) ∧
      ∀ n, (demux ((framed fs).take n)).1 <+: printed .stdout fs ∧
        (demux ((framed fs).take n)).2 <+: printed .stderr fs := by
  constructor
  · have hall := demuxFrom_framed fs [] [] [] []
    simp only [List.nil_append, List.append_nil, List.length_nil] at hall
    rw [demux, hall, demuxFrom_end (by omega)]
  · intro n
    obtain ⟨p, hp, q, hq, hcut⟩ := demuxFrom_take fs [] [] [] n
    rw [demux, ← List.nil_append ((framed fs).take n), ← List.length_nil (α := UInt8), hcut]
    exact ⟨hp, hq⟩

end RagLeap.Sandbox
