import Spp.Lib.Printf

/-!
# Formatting a log line

`log_i` prints a header and the message into a buffer of 4096 bytes and writes the buffer to the
log.  The length that it writes, and adds to the size of the file, is a sum of what `snprintf`
returns, which is the length that the text would have had: a message that does not fit makes it
pass bytes to `write` that it has not stored, behind the end of the buffer too.

What `shift_file` does before is a parameter; it decides whether the line is printed.

## Main definitions

* `Tm` — a broken-down time.
* `timeText`, `levelText`, `tidText`, `header` — what stands before the message.
* `sprint`, `printLine`, `logI` — the line in the buffer, and the call.
* `StaysInBuffer` — the claim on a call.
-/

namespace Spp.Log

open Printf

/-- `struct tm`. -/
structure Tm where
  tmYear : Int32
  tmMon : Int32
  tmMday : Int32
  tmHour : Int32
  tmMin : Int32
  tmSec : Int32
  tmYday : Int32

def maxLogLen : ℕ := 4096

def flagTime : UInt32 := 1
def flagTid : UInt32 := 2
def flagLevel : UInt32 := 4

/-- `get_time`. -/
def timeText (tm : Tm) : List UInt8 :=
  ascii "[" ++ zeroPadded 4 (tm.tmYear + 1900).toInt ++ ascii "-" ++
    zeroPadded 2 (tm.tmMon + 1).toInt ++ ascii "-" ++ zeroPadded 2 tm.tmMday.toInt ++
    ascii " " ++ zeroPadded 2 tm.tmHour.toInt ++ ascii ":" ++ zeroPadded 2 tm.tmMin.toInt ++
    ascii ":" ++ zeroPadded 2 tm.tmSec.toInt ++ ascii "]"

/-- `level_str`. -/
def levelStr : List (List UInt8) := ["TRACE", "DEBUG", "NORMAL", "ERROR", "FATAL"].map ascii

/-- `get_level`, which prints nothing for another number. -/
def levelText (level : ℤ) : Option (List UInt8) :=
  if level < 0 then none
  else levelStr[level.toNat]?.map fun name => ascii "[" ++ leftAligned 6 name ++ ascii "]"

/-- `get_tid`. -/
def tidText (tid : Int32) : List UInt8 :=
  ascii "[" ++ leftAligned 5 (decimal tid.toInt) ++ ascii "]"

/-- A call of `log_i`: `hook` is what the hook returns, if there is one, and `fmt` what the
format comes to with its arguments. -/
structure Call where
  flag : UInt32
  level : ℤ
  hook : Option ℤ
  tm : Tm
  tid : Int32
  fmt : Formatted

/-- The texts that stand before the message. -/
def Call.pieces (c : Call) : List (List UInt8) :=
  (if c.flag &&& flagTime ≠ 0 then [timeText c.tm] else []) ++
    ((if c.flag &&& flagLevel ≠ 0 then (levelText c.level).toList else []) ++
      if c.flag &&& flagTid ≠ 0 then [tidText c.tid] else [])

/-- The header of the line. -/
def Call.header (c : Call) : List UInt8 := c.pieces.flatten

/-- What `shift_file` returns, and the `cur_file_size_` that it leaves. -/
structure Shifted where
  ret : ℤ
  curFileSize : Int32

/-- `len += snprintf(buffer_ + len, MAX_LOG_LEN - len - 1, ..)`, the macro `SPRINT`; the size
is a `size_t`. -/
def sprint (b : Buffer) (len : ℤ) (f : Formatted) : Buffer × ℤ :=
  let r := b.snprintf len.toNat ((maxLogLen - len - 1) % 2 ^ 64).toNat f
  (r.1, s32 (len + r.2))

/-- The header and the message in the buffer, with `buff_len`. -/
def printLine (c : Call) (b : Buffer) : Buffer × ℤ :=
  let r := c.pieces.foldl (fun r bs => sprint r.1 r.2 (.ok bs)) (b, 0)
  sprint r.1 r.2 c.fmt

/-- What a call leaves: the buffer, the length that it passes to `write`, and
`cur_file_size_`. -/
structure Logged where
  buffer : Buffer
  passed : Option ℕ
  curFileSize : ℤ

/-- The call prints its line. -/
def Call.Prints (c : Call) (logLevel : ℤ) (shift : Shifted) : Prop :=
  ¬ c.level < logLevel ∧ ¬ shift.ret < 0 ∧ c.hook ≠ some 0

instance (c : Call) (logLevel : ℤ) (shift : Shifted) : Decidable (c.Prints logLevel shift) :=
  inferInstanceAs (Decidable (_ ∧ _))

/-- `cur_file_size_` before the line is printed. -/
def Call.sizeBefore (c : Call) (logLevel : ℤ) (curFileSize : Int32) (shift : Shifted) : ℤ :=
  if c.level < logLevel then curFileSize.toInt else shift.curFileSize.toInt

/-- `log_i`; the length is passed as a `size_t`. -/
def logI (logLevel : ℤ) (curFileSize : Int32) (shift : Shifted) (c : Call) (b : Buffer) :
    Logged :=
  if c.level < logLevel then ⟨b, none, curFileSize.toInt⟩
  else if shift.ret < 0 then ⟨b, none, shift.curFileSize.toInt⟩
  else if c.hook = some 0 then ⟨b, none, shift.curFileSize.toInt⟩
  else
    let r := printLine c b
    ⟨r.1, some (r.2 % 2 ^ 64).toNat, s32 (shift.curFileSize.toInt + r.2)⟩

/-- The claim on a call, whatever the buffer contains: it prints inside the buffer, it passes
bytes to `write` that it has printed, and it counts as many as it passes.  With `nul` the NUL
behind a text is one of the bytes that are printed. -/
structure StaysInBuffer (nul : Bool) (logLevel : ℤ) (curFileSize : Int32) (shift : Shifted)
    (c : Call) (mem : ℕ → UInt8) : Prop where
  inside : ∀ s ∈ (logI logLevel curFileSize shift c ⟨mem, []⟩).buffer.prints,
    s.1 + s.2 + 1 ≤ maxLogLen
  passed : ∀ n, (logI logLevel curFileSize shift c ⟨mem, []⟩).passed = some n →
    ∀ i < n, (logI logLevel curFileSize shift c ⟨mem, []⟩).buffer.Printed nul i
  counted : (logI logLevel curFileSize shift c ⟨mem, []⟩).curFileSize =
    c.sizeBefore logLevel curFileSize shift +
      ((logI logLevel curFileSize shift c ⟨mem, []⟩).passed.getD 0 : ℕ)

/-! ## The header -/

theorem length_zeroPadded_le {w : ℕ} (hw : w ≤ 11) (z : Int32) :
    (zeroPadded w z.toInt).length ≤ 11 := by
  have hdecimal := length_decimal_le z
  rw [length_zeroPadded]
  omega

theorem length_timeText_le (tm : Tm) : (timeText tm).length ≤ 73 := by
  have hyear := length_zeroPadded_le (w := 4) (by omega) (tm.tmYear + 1900)
  have hmon := length_zeroPadded_le (w := 2) (by omega) (tm.tmMon + 1)
  have hmday := length_zeroPadded_le (w := 2) (by omega) tm.tmMday
  have hhour := length_zeroPadded_le (w := 2) (by omega) tm.tmHour
  have hmin := length_zeroPadded_le (w := 2) (by omega) tm.tmMin
  have hsec := length_zeroPadded_le (w := 2) (by omega) tm.tmSec
  have hmarks : (ascii "[").length + (ascii "-").length + (ascii "-").length +
      (ascii " ").length + (ascii ":").length + (ascii ":").length + (ascii "]").length = 7 := rfl
  simp only [timeText, List.length_append]
  omega

theorem length_levelText {level : ℤ} {bs : List UInt8} (h : levelText level = some bs) :
    bs.length = 8 := by
  rw [levelText] at h
  split at h
  · exact absurd h (by simp)
  · obtain ⟨name, hname, rfl⟩ := Option.map_eq_some_iff.mp h
    have hall : ∀ name ∈ levelStr,
        (ascii "[" ++ leftAligned 6 name ++ ascii "]").length = 8 := by decide
    exact hall name (List.mem_of_getElem? hname)

theorem length_tidText_le (tid : Int32) : (tidText tid).length ≤ 13 := by
  have hdecimal := length_decimal_le tid
  have haligned := length_leftAligned 5 (decimal tid.toInt)
  have hmarks : (ascii "[").length + (ascii "]").length = 2 := rfl
  simp only [tidText, List.length_append]
  omega

/-- The header always fits. -/
theorem length_header_le (c : Call) : c.header.length ≤ 94 := by
  have htime : (if c.flag &&& flagTime ≠ 0 then [timeText c.tm] else []).flatten.length ≤ 73 := by
    split
    · simpa using length_timeText_le c.tm
    · simp
  have hlevel : (if c.flag &&& flagLevel ≠ 0 then
      (levelText c.level).toList else []).flatten.length ≤ 8 := by
    split
    · cases h : levelText c.level with
      | none => simp
      | some bs => simp [length_levelText h]
    · simp
  have htid : (if c.flag &&& flagTid ≠ 0 then [tidText c.tid] else []).flatten.length ≤ 13 := by
    split
    · simpa using length_tidText_le c.tid
    · simp
  simp only [Call.header, Call.pieces, List.flatten_append, List.length_append]
  omega

/-! ## The line -/

/-- The buffer has a text in front, which is all that has been printed. -/
structure Begins (b : Buffer) (text : List UInt8) : Prop where
  front : Mem.read b.mem 0 text.length = text
  filled : b.Filled text.length maxLogLen

theorem begins_nil (mem : ℕ → UInt8) : Begins ⟨mem, []⟩ [] := by
  refine ⟨rfl, fun i => ?_, fun i => ?_, ?_⟩
  · simp [Buffer.Printed]
  · simp [Buffer.Printed]
  · intro s hs
    simp at hs

section
variable {b : Buffer} {text bs : List UInt8}

theorem Begins.store (h : Begins b text) (hroom : text.length + bs.length + 1 ≤ maxLogLen) :
    Begins (b.store text.length bs) (text ++ bs) := by
  have hfilled := h.filled.store hroom
  rw [← List.length_append] at hfilled
  exact ⟨Buffer.read_store h.front, hfilled⟩

/-- What the macro stores behind a text that leaves room. -/
theorem sprint_eq (hroom : text.length ≤ 94) (f : Formatted) :
    sprint b text.length f =
      (b.store text.length (f.text.take (4094 - text.length)), s32 (text.length + f.ret)) := by
  have hsize : ((maxLogLen - (text.length : ℤ) - 1) % 2 ^ 64).toNat = 4095 - text.length := by
    rw [maxLogLen]
    omega
  have hlast : 4095 - text.length - 1 = 4094 - text.length := by omega
  rw [sprint, hsize, Int.toNat_natCast, Buffer.snprintf_fst (by omega), hlast]
  rfl

end

/-- Texts that leave room together are printed one behind the other. -/
theorem Begins.foldl_sprint (pieces : List (List UInt8)) :
    ∀ {b : Buffer} {text : List UInt8}, Begins b text → (text ++ pieces.flatten).length ≤ 94 →
      ∃ b', pieces.foldl (fun r bs => sprint r.1 r.2 (.ok bs)) (b, (text.length : ℤ)) =
        (b', ((text ++ pieces.flatten).length : ℤ)) ∧ Begins b' (text ++ pieces.flatten) := by
  induction pieces with
  | nil =>
      intro b text h _
      exact ⟨b, by simp, by simpa using h⟩
  | cons bs pieces ih =>
      intro b text h hroom
      have hlen : text.length + (bs.length + pieces.flatten.length) ≤ 94 := by
        simpa using hroom
      have hret : (Formatted.ok bs).ret = bs.length :=
        Formatted.ret_of_lt rfl (by dsimp only [Formatted.ok]; omega)
      have htake : bs.take (4094 - text.length) = bs := List.take_of_length_le (by omega)
      have hs32 : s32 ((text.length : ℤ) + bs.length) = ((text ++ bs).length : ℤ) := by
        rw [List.length_append, ← Nat.cast_add]
        exact s32_of_lt (by omega)
      have hstep : sprint b text.length (.ok bs) =
          (b.store text.length bs, ((text ++ bs).length : ℤ)) := by
        rw [sprint_eq (by omega), hret, hs32, Formatted.ok, htake]
      have hnext : Begins (b.store text.length bs) (text ++ bs) :=
        h.store (by rw [maxLogLen]; omega)
      obtain ⟨b', heq, hb'⟩ := ih hnext (by simpa using hroom)
      rw [List.foldl_cons, List.flatten_cons, ← List.append_assoc, hstep]
      exact ⟨b', heq, hb'⟩

/-- Of the message, what fits the buffer behind the header. -/
def Call.fitting (c : Call) : List UInt8 := c.fmt.text.take (4094 - c.header.length)

/-- The line in the buffer is the header, with what fits of the message, and a NUL. -/
theorem printLine_spec (c : Call) (mem : ℕ → UInt8) :
    Begins (printLine c ⟨mem, []⟩).1 (c.header ++ c.fitting) ∧
      (∀ nul i, (printLine c ⟨mem, []⟩).1.Printed nul i ↔
        i < c.header.length + c.fitting.length + nul.toNat) ∧
      (printLine c ⟨mem, []⟩).2 = s32 (c.header.length + c.fmt.ret) := by
  have hheader := length_header_le c
  obtain ⟨b, heq, hb⟩ := (begins_nil mem).foldl_sprint c.pieces hheader
  rw [List.nil_append] at heq hb
  have hline : printLine c ⟨mem, []⟩ =
      (b.store c.header.length c.fitting, s32 (c.header.length + c.fmt.ret)) := by
    rw [printLine]
    simp only [List.length_nil, Nat.cast_zero] at heq
    rw [heq]
    exact sprint_eq hheader c.fmt
  have hfit : c.fitting.length ≤ 4094 - c.header.length := by
    rw [Call.fitting, List.length_take]
    omega
  have hroom : c.header.length + c.fitting.length + 1 ≤ maxLogLen := by
    rw [maxLogLen]
    omega
  have hstored : Begins (b.store c.header.length c.fitting) (c.header ++ c.fitting) :=
    hb.store hroom
  have hfilled := hstored.filled
  rw [List.length_append] at hfilled
  rw [hline]
  exact ⟨hstored, fun nul i => hfilled.printed_iff, rfl⟩

/-! ## The call -/

/-- `buff_len`, before it is kept in an `int`: the length of the header with what `vsnprintf`
returns. -/
def Call.lineLen (c : Call) : ℤ := c.header.length + c.fmt.ret

section
variable {nul : Bool} {logLevel : ℤ} {curFileSize : Int32} {shift : Shifted} {c : Call}
variable {mem : ℕ → UInt8}

theorem logI_of_prints (h : c.Prints logLevel shift) (b : Buffer) :
    logI logLevel curFileSize shift c b =
      ⟨(printLine c b).1, some ((printLine c b).2 % 2 ^ 64).toNat,
        s32 (shift.curFileSize.toInt + (printLine c b).2)⟩ := by
  rw [logI, if_neg h.1, if_neg h.2.1, if_neg h.2.2]

/-- A call that prints nothing does nothing. -/
theorem logI_of_not_prints (h : ¬ c.Prints logLevel shift) (b : Buffer) :
    logI logLevel curFileSize shift c b =
      ⟨b, none, c.sizeBefore logLevel curFileSize shift⟩ := by
  rw [logI, Call.sizeBefore]
  split
  · rfl
  · next hlevel =>
    split
    · rfl
    · next hshift =>
      split
      · rfl
      · next hhook => exact absurd ⟨hlevel, hshift, hhook⟩ h

theorem sizeBefore_of_prints (h : c.Prints logLevel shift) :
    c.sizeBefore logLevel curFileSize shift = shift.curFileSize.toInt := if_neg h.1

theorem StaysInBuffer.of_not_prints (h : ¬ c.Prints logLevel shift) :
    StaysInBuffer nul logLevel curFileSize shift c mem := by
  constructor <;> rw [logI_of_not_prints h]
  · intro s hs
    simp at hs
  · intro n hn
    simp at hn
  · simp

/-- The longest line that the buffer holds; with `nul` its NUL counts. -/
def maxLine (nul : Bool) : ℕ := maxLogLen - 2 + nul.toNat

theorem maxLine_le (nul : Bool) : maxLine nul ≤ 4095 := by
  have hnul := Bool.toNat_le nul
  rw [maxLine, maxLogLen]
  omega

/-- The length of a line that an `int` holds is what the last call leaves in `buff_len`. -/
theorem printLine_lineLen (c : Call) (mem : ℕ → UInt8) (hlo : 0 ≤ c.lineLen)
    (hhi : c.lineLen < 2 ^ 31) : (printLine c ⟨mem, []⟩).2 = c.lineLen := by
  obtain ⟨-, -, hsum⟩ := printLine_spec c mem
  have hint : s32 c.lineLen = c.lineLen := s32_of_bounds (by omega) hhi
  rw [hsum]
  exact hint

/-- Any other length is negative there, and passed as a large one. -/
theorem printLine_wraps (c : Call) (mem : ℕ → UInt8)
    (h : ¬ (0 ≤ c.lineLen ∧ c.lineLen < 2 ^ 31)) :
    5000 < ((printLine c ⟨mem, []⟩).2 % 2 ^ 64).toNat := by
  obtain ⟨-, -, hsum⟩ := printLine_spec c mem
  obtain ⟨hlo, hhi⟩ := c.fmt.ret_bounds
  have hheader := length_header_le c
  rw [Call.lineLen] at h
  rw [hsum, s32]
  omega

/-- What is passed has been printed exactly when the length is one that the buffer holds. -/
theorem passed_iff (nul : Bool) (c : Call) (mem : ℕ → UInt8) :
    (∀ i < ((printLine c ⟨mem, []⟩).2 % 2 ^ 64).toNat,
      (printLine c ⟨mem, []⟩).1.Printed nul i) ↔ 0 ≤ c.lineLen ∧ c.lineLen ≤ maxLine nul := by
  obtain ⟨-, hprinted, -⟩ := printLine_spec c mem
  have hheader := length_header_le c
  have hnul := Bool.toNat_le nul
  have hmax := maxLine_le nul
  have hfit : c.fitting.length = min (4094 - c.header.length) c.fmt.text.length :=
    List.length_take
  simp only [hprinted]
  by_cases hint : 0 ≤ c.lineLen ∧ c.lineLen < 2 ^ 31
  · rw [printLine_lineLen c mem hint.1 hint.2, Int.emod_eq_of_lt hint.1 (by omega)]
    have hret := c.fmt.ret_eq_or
    simp only [Call.lineLen, maxLine, maxLogLen] at hint ⊢
    constructor
    · intro h
      refine ⟨hint.1, ?_⟩
      by_contra hlong
      have hlast := h (4094 + nul.toNat) (by omega)
      omega
    · intro hline i hi
      omega
  · constructor
    · intro h
      have hlast := h 5000 (printLine_wraps c mem hint)
      omega
    · intro hline
      exact absurd ⟨hline.1, by omega⟩ hint

/-- A call that keeps to the buffer prints a line that the buffer holds. -/
theorem StaysInBuffer.lineLen (h : StaysInBuffer nul logLevel curFileSize shift c mem)
    (hprints : c.Prints logLevel shift) : 0 ≤ c.lineLen ∧ c.lineLen ≤ maxLine nul := by
  refine (passed_iff nul c mem).mp fun i hi => ?_
  have hprinted := h.passed _ (by rw [logI_of_prints hprints]) i hi
  rw [logI_of_prints hprints] at hprinted
  exact hprinted

/-- A call keeps to the buffer exactly when it prints nothing, or the header and what
`vsnprintf` returns are together a length that the buffer holds and `cur_file_size_` can
count. -/
theorem staysInBuffer_iff (nul : Bool) (logLevel : ℤ) (curFileSize : Int32) (shift : Shifted)
    (c : Call) (mem : ℕ → UInt8) :
    StaysInBuffer nul logLevel curFileSize shift c mem ↔
      (c.Prints logLevel shift →
        (0 ≤ c.lineLen ∧ c.lineLen ≤ maxLine nul) ∧
          shift.curFileSize.toInt + c.lineLen < 2 ^ 31) := by
  by_cases hprints : c.Prints logLevel shift
  · obtain ⟨hbegins, -, -⟩ := printLine_spec c mem
    have hsize := shift.curFileSize.le_toInt
    have hmax := maxLine_le nul
    have hpassed := passed_iff nul c mem
    have hline : 0 ≤ c.lineLen ∧ c.lineLen ≤ maxLine nul →
        (printLine c ⟨mem, []⟩).2 = c.lineLen := fun hbuffer =>
      printLine_lineLen c mem hbuffer.1 (by omega)
    have hcounted : 0 ≤ c.lineLen ∧ c.lineLen ≤ maxLine nul →
        (s32 (shift.curFileSize.toInt + c.lineLen) =
          shift.curFileSize.toInt + (c.lineLen % 2 ^ 64).toNat ↔
            shift.curFileSize.toInt + c.lineLen < 2 ^ 31) := by
      rintro ⟨hlo, hhi⟩
      rw [s32]
      omega
    constructor
    · intro h _
      have hbuffer := h.lineLen hprints
      have hcount := h.counted
      rw [logI_of_prints hprints, sizeBefore_of_prints hprints, Option.getD_some,
        hline hbuffer] at hcount
      exact ⟨hbuffer, (hcounted hbuffer).mp hcount⟩
    · intro h
      obtain ⟨hbuffer, hroom⟩ := h hprints
      constructor <;> rw [logI_of_prints hprints]
      · exact hbegins.filled.inside
      · intro n hn
        obtain rfl := Option.some.inj hn
        exact hpassed.mpr hbuffer
      · rw [sizeBefore_of_prints hprints, Option.getD_some, hline hbuffer]
        exact (hcounted hbuffer).mpr hroom
  · refine ⟨fun _ h => absurd h hprints, fun _ => .of_not_prints hprints⟩

/-- A line that fits with its NUL is passed whole. -/
theorem logI_line (h : c.Prints logLevel shift) (hok : c.fmt.error = false)
    (hfits : (c.header ++ c.fmt.text).length ≤ maxLine false) :
    let out := logI logLevel curFileSize shift c ⟨mem, []⟩
    out.passed = some (c.header ++ c.fmt.text).length ∧
      Mem.read out.buffer.mem 0 (c.header ++ c.fmt.text).length = c.header ++ c.fmt.text := by
  intro out
  obtain ⟨hbegins, -, hsum⟩ := printLine_spec c mem
  rw [List.length_append, maxLine, maxLogLen, Bool.toNat_false] at hfits
  have hret : c.fmt.ret = c.fmt.text.length := Formatted.ret_of_lt hok (by omega)
  have htake : c.fitting = c.fmt.text := List.take_of_length_le (by omega)
  rw [hret, s32_of_bounds (by omega) (by omega)] at hsum
  rw [htake] at hbegins
  have hlen : ((printLine c ⟨mem, []⟩).2 % 2 ^ 64).toNat = (c.header ++ c.fmt.text).length := by
    rw [hsum, List.length_append]
    omega
  have hout : out = _ := logI_of_prints h _
  rw [hout]
  exact ⟨congrArg some hlen, hbegins.front⟩

end

/-- A configuration of 5000 letters in the log of the update client: `write` gets 5029 bytes. -/
def longCall : Call where
  flag := flagTime ||| flagLevel
  level := 1
  hook := none
  tm := ⟨124, 0, 1, 0, 0, 0, 0⟩
  tid := 1
  fmt := .ok (List.replicate 5000 97)

theorem lineLen_longCall : longCall.lineLen = 5029 := by
  have hheader : longCall.header.length = 29 := by decide
  have hlen : longCall.fmt.text.length = 5000 := List.length_replicate
  have hret : longCall.fmt.ret = 5000 := by
    rw [Formatted.ret_of_lt rfl (by omega), hlen]
    rfl
  rw [Call.lineLen, hheader, hret]
  rfl

/-- Of these the buffer holds 4094 characters and a NUL. -/
theorem not_staysInBuffer_long :
    longCall.Prints 0 ⟨0, 0⟩ ∧ ¬ StaysInBuffer false 0 0 ⟨0, 0⟩ longCall (fun _ => 0) ∧
      ¬ StaysInBuffer true 0 0 ⟨0, 0⟩ longCall (fun _ => 0) := by
  have hprints : longCall.Prints 0 ⟨0, 0⟩ := by decide
  refine ⟨hprints, fun h => ?_, fun h => ?_⟩
  · have hline := (h.lineLen hprints).2
    rw [lineLen_longCall] at hline
    exact absurd hline (by decide)
  · have hline := (h.lineLen hprints).2
    rw [lineLen_longCall] at hline
    exact absurd hline (by decide)

end Spp.Log
