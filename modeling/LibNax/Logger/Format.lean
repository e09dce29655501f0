import LibNax.Lib.Bytes
import LibNax.Lib.Decimal
import LibNax.Lib.Int32
import LibNax.Logger.Directory
import Mathlib.Data.Nat.Digits.Lemmas

/-!
# The line of a message

`_format_log_string` writes the time, the level and the thread, then as much of the message as there
is room for, and then the line break.  Where the message was cut, the place of the line break is
computed from the size of the buffer: it is the place behind the end of what was written.

* `vsnprintf` — of the C library, for a text that is already formatted.
* `writeHeader` and `writeMessage` — the two halves of `_format_log_string`.
* `writeHeader_eq`, `writeMessage_eq`, `writeMessage_long` — what is in the buffer after.
* `endsLine_iff` — the messages whose line ends with a line break.
-/

set_option autoImplicit false

namespace LibNax

namespace Logger

open Lib (int32 overwrite)

/-! ## Texts -/

/-- The bytes of a literal. -/
def literal (s : String) : List UInt8 := s.toList.map fun c => UInt8.ofNat c.toNat

/-- Leading zeros, as in `%02u`. -/
def zeros (width : Nat) (digits : List UInt8) : List UInt8 :=
  List.replicate (width - digits.length) 0x30 ++ digits

/-- A digit of `%X`. -/
def hexDigit (d : Nat) : UInt8 := UInt8.ofNat (if d < 10 then 0x30 + d else 0x37 + d)

/-- The digits of `%X`, but none for 0. -/
def hex (n : Nat) : List UInt8 := (Nat.digits 16 n).reverse.map hexDigit

/-- `unsigned int` of an argument. -/
def unsigned (x : Int) : Nat := (x % 2 ^ 32).toNat

/-- `size_t` of an `int`. -/
def sizeT (x : Int) : Nat := (x % 2 ^ 64).toNat

/-! ## The source -/

/-- `enum log_levels`, in front of the last one. -/
inductive LogLevel where
  | info
  | warning
  | error
  | fatal
  | trace
  deriving Repr, DecidableEq

/-- `LOG_LEVEL_TXT`. -/
def logLevelTxt : LogLevel → List UInt8
  | .info => literal "info"
  | .warning => literal "warning"
  | .error => literal "error"
  | .fatal => literal "fatal"
  | .trace => literal "trace"

/-- What is used of `datetime_t`. -/
structure Datetime where
  hour : Int
  minute : Int
  second : Int
  low : UInt64

/-- `MAXIMUM_LOG_BUFFER_SIZE`. -/
def maximumLogBufferSize : Int := 2048

/-- `POSIX__EOL`. -/
def posixEol : List UInt8 := [0x0A]

/-- `sizeof(POSIX__EOL)`, with the end of the string. -/
def sizeofEol : Int := 2

/-- The text of `"%02u:%02u:%02u %04u "`. -/
def timeText (currst : Datetime) : List UInt8 :=
  zeros 2 (Lib.decimal (unsigned currst.hour)) ++ literal ":" ++
    zeros 2 (Lib.decimal (unsigned currst.minute)) ++ literal ":" ++
      zeros 2 (Lib.decimal (unsigned currst.second)) ++ literal " " ++
        zeros 4 (Lib.decimal (unsigned (currst.low.toNat / 10000))) ++ literal " "

/-- The text of `"%s "`. -/
def levelText (level : LogLevel) : List UInt8 := logLevelTxt level ++ literal " "

/-- The text of `"%04X # "`. -/
def threadText (tid : Int) : List UInt8 := zeros 4 (hex (unsigned tid)) ++ literal " # "

/-- What a line starts with. -/
def header (level : LogLevel) (tid : Int) (currst : Datetime) : List UInt8 :=
  timeText currst ++ levelText level ++ threadText tid

/-- Bytes are written at a place of the buffer.  There is no result where they leave it. -/
def writeAt (p : List UInt8) (pos : Int) (new : List UInt8) : Option (List UInt8) :=
  if 0 ≤ pos ∧ pos + new.length ≤ p.length then some (overwrite p pos.toNat new) else none

/-- `vsnprintf` of a text: the buffer and the result.  Where the length is not an `int`, there is an
error, and what is left in the buffer is not specified. -/
def vsnprintf (junk p : List UInt8) (pos : Int) (size : Nat) (text : List UInt8) :
    Option (List UInt8 × Int) :=
  if text.length < 2 ^ 31 then
    if size = 0 then some (p, text.length)
    else (writeAt p pos (text.take (size - 1) ++ [0])).map fun p => (p, (text.length : Int))
  else (writeAt p pos (junk.take size)).map fun p => (p, -1)

/-- `crt_sprintf`. -/
def crtSprintf (junk p : List UInt8) (pos maxlen : Int) (text : List UInt8) :
    Option (List UInt8 × Int) :=
  vsnprintf junk p pos (sizeT (maxlen - 1)) text

/-- The first half of `_format_log_string`: the buffer, and `pos`. -/
def writeHeader (junk : List UInt8) (level : LogLevel) (tid : Int) (currst : Datetime)
    (logstr : List UInt8) (cch : Int) : Option (List UInt8 × Int) := do
  let pos := 0
  let (p, n) ← crtSprintf junk logstr pos (cch - pos) (timeText currst)
  let pos := pos + n
  let (p, n) ← crtSprintf junk p pos (cch - pos) (levelText level)
  let pos := pos + n
  let (p, n) ← crtSprintf junk p pos (cch - pos) (threadText tid)
  some (p, pos + n)

/-- The second half of `_format_log_string`. -/
def writeMessage (junk : List UInt8) (message p : List UInt8) (pos cch : Int) :
    Option (List UInt8) := do
  let c := int32 (cch - pos - 1 - sizeofEol)
  let (p, n) ← vsnprintf junk p pos (sizeT c) message
  let pos := if n ≥ c then maximumLogBufferSize - 1 - sizeofEol else pos + n
  let (p, n) ← crtSprintf junk p pos (cch - pos) posixEol
  let pos := pos + n
  writeAt p pos [0]

/-- `_format_log_string`, for a message that is formatted: what is in the buffer after. -/
def formatLogString (junk : List UInt8) (level : LogLevel) (tid : Int) (message : List UInt8)
    (currst : Datetime) (logstr : List UInt8) (cch : Int) : Option (List UInt8) := do
  let (p, pos) ← writeHeader junk level tid currst logstr cch
  writeMessage junk message p pos cch

/-! ## The texts are short, and have no end inside -/

/-- A text without a NUL. -/
def NoNul (text : List UInt8) : Prop := (0 : UInt8) ∉ text

instance (text : List UInt8) : Decidable (NoNul text) :=
  inferInstanceAs (Decidable ((0 : UInt8) ∉ text))

theorem noNul_append {a b : List UInt8} (ha : NoNul a) (hb : NoNul b) : NoNul (a ++ b) := by
  rw [NoNul, List.mem_append]
  exact fun h => h.elim ha hb

theorem noNul_zeros (width : Nat) {digits : List UInt8} (h : NoNul digits) :
    NoNul (zeros width digits) :=
  noNul_append (fun hmem => absurd (List.eq_of_mem_replicate hmem) (by decide)) h

theorem noNul_decimal (n : Nat) : NoNul (Lib.decimal n) := fun hmem =>
  absurd (Lib.isDigit_of_mem_decimal hmem) (by decide)

theorem noNul_hex (n : Nat) : NoNul (hex n) := by
  intro hmem
  obtain ⟨d, hd, hzero⟩ := List.mem_map.mp hmem
  have hlt : d < 16 := Nat.digits_lt_base (by decide) (List.mem_reverse.mp hd)
  have hall : ∀ d < 16, hexDigit d ≠ 0 := by decide
  exact hall d hlt hzero

theorem noNul_header (level : LogLevel) (tid : Int) (currst : Datetime) :
    NoNul (header level tid currst) := by
  have hlevel : NoNul (levelText level) := by
    cases level with
    | info => decide
    | warning => decide
    | error => decide
    | fatal => decide
    | trace => decide
  have hcolon : NoNul (literal ":") := by decide
  have hblank : NoNul (literal " ") := by decide
  have hhash : NoNul (literal " # ") := by decide
  have hnumber := fun width n => noNul_zeros width (noNul_decimal n)
  have htime : NoNul (timeText currst) :=
    noNul_append (noNul_append (noNul_append (noNul_append (noNul_append (noNul_append
      (noNul_append (hnumber _ _) hcolon) (hnumber _ _)) hcolon) (hnumber _ _)) hblank)
        (hnumber _ _)) hblank
  exact noNul_append (noNul_append htime hlevel)
    (noNul_append (noNul_zeros _ (noNul_hex _)) hhash)

theorem length_zeros (width : Nat) (digits : List UInt8) :
    (zeros width digits).length = max width digits.length := by
  rw [zeros, List.length_append, List.length_replicate]
  omega

theorem unsigned_lt (x : Int) : unsigned x < 2 ^ 32 := by
  rw [unsigned]
  omega

theorem length_decimal_unsigned (x : Int) : (Lib.decimal (unsigned x)).length ≤ 10 :=
  (Lib.length_decimal_le_iff (by decide)).mpr (Nat.lt_trans (unsigned_lt x) (by decide))

theorem length_hex_unsigned (x : Int) : (hex (unsigned x)).length ≤ 8 := by
  rw [hex, List.length_map, List.length_reverse]
  exact (Nat.digits_length_le_iff (by decide) _).mpr
    (Nat.lt_of_lt_of_eq (unsigned_lt x) (by decide))

theorem length_timeText (currst : Datetime) : (timeText currst).length ≤ 44 := by
  have h₁ := length_decimal_unsigned currst.hour
  have h₂ := length_decimal_unsigned currst.minute
  have h₃ := length_decimal_unsigned currst.second
  have h₄ := length_decimal_unsigned (currst.low.toNat / 10000)
  have hcolon : (literal ":").length = 1 := by decide
  have hblank : (literal " ").length = 1 := by decide
  simp only [timeText, List.length_append, length_zeros, hcolon, hblank]
  omega

theorem length_levelText (level : LogLevel) : (levelText level).length ≤ 8 := by
  cases level with
  | info => decide
  | warning => decide
  | error => decide
  | fatal => decide
  | trace => decide

theorem length_threadText (tid : Int) :
    3 ≤ (threadText tid).length ∧ (threadText tid).length ≤ 11 := by
  have hhex := length_hex_unsigned tid
  have hhash : (literal " # ").length = 3 := by decide
  rw [threadText, List.length_append, length_zeros, hhash]
  omega

theorem length_header (level : LogLevel) (tid : Int) (currst : Datetime) :
    0 < (header level tid currst).length ∧ (header level tid currst).length ≤ 63 := by
  have htime := length_timeText currst
  have hlevel := length_levelText level
  have hthread := length_threadText tid
  simp only [header, List.length_append]
  omega

/-! ## The buffer -/

/-- A buffer of a line that starts with a text. -/
structure Begins (p text : List UInt8) : Prop where
  text : text <+: p
  length : p.length = 2048

section Buffer

variable {p pre t : List UInt8}

theorem Begins.mono (h : Begins p (pre ++ t)) : Begins p pre :=
  ⟨(List.prefix_append pre t).trans h.text, h.length⟩

/-- The string of a buffer ends at the first NUL. -/
theorem Begins.chars (h : Begins p (pre ++ t ++ [0])) (hpre : NoNul pre) :
    cstring p = pre ++ cstring t ∧ (0 : UInt8) ∈ p := by
  obtain ⟨rest, rfl⟩ := h.text
  refine ⟨?_, by simp⟩
  rw [List.append_assoc, List.append_assoc, cstring_append_of_notMem hpre]
  exact congrArg (pre ++ ·) (cstring_append_end t rest)

/-- Something is written at a place in the text, or behind it. -/
theorem Begins.write (h : Begins p pre) (hroom : pre.length + t.length ≤ 2048) :
    writeAt p pre.length t = some (overwrite p pre.length t) ∧
      Begins (overwrite p pre.length t) (pre ++ t) := by
  have hlen := h.length
  have htake : p.take pre.length = pre := (List.prefix_iff_eq_take.mp h.text).symm
  refine ⟨?_, ?_, ?_⟩
  · rw [writeAt, if_pos (by omega), Int.toNat_natCast]
  · rw [overwrite, htake]
    exact List.prefix_append _ _
  · rw [Lib.length_overwrite (by omega), hlen]

/-- `vsnprintf` of a text behind another one. -/
theorem Begins.vsnprintf (h : Begins p pre) (junk : List UInt8) {size : Nat} (hsize : 0 < size)
    (htext : t.length < 2 ^ 31) (hroom : pre.length + size ≤ 2048) :
    ∃ p', Logger.vsnprintf junk p pre.length size t = some (p', (t.length : Int)) ∧
      Begins p' (pre ++ t.take (size - 1) ++ [0]) := by
  have hle : (t.take (size - 1) ++ [0]).length ≤ size := by
    rw [List.length_append, List.length_take]
    simp only [List.length_cons, List.length_nil]
    omega
  obtain ⟨hwrite, hbegins⟩ := h.write (t := t.take (size - 1) ++ [0]) (by omega)
  rw [← List.append_assoc] at hbegins
  refine ⟨_, ?_, hbegins⟩
  rw [Logger.vsnprintf, if_pos htext, if_neg (by omega), hwrite, Option.map_some]

theorem sizeT_natCast {n : Nat} (h : n < 2 ^ 64) : sizeT n = n := by
  rw [sizeT]
  omega

/-- `crt_sprintf` of a text for which there is room. -/
theorem Begins.crtSprintf (h : Begins p pre) (junk t : List UInt8) {pos maxlen : Int}
    (hpos : pos = pre.length) (hmaxlen : maxlen = maximumLogBufferSize - pos)
    (hroom : pre.length + t.length + 2 ≤ 2048) :
    ∃ p', Logger.crtSprintf junk p pos maxlen t = some (p', (t.length : Int)) ∧
      Begins p' (pre ++ t ++ [0]) := by
  have hsize : sizeT (maxlen - 1) = 2047 - pre.length := by
    rw [hmaxlen, hpos, maximumLogBufferSize, sizeT]
    omega
  have hsome : 0 < 2047 - pre.length := by omega
  obtain ⟨p', hprint, hbegins⟩ := h.vsnprintf (t := t) junk hsome (by omega) (by omega)
  rw [List.take_of_length_le (by omega)] at hbegins
  exact ⟨p', by rw [Logger.crtSprintf, hsize, hpos, hprint], hbegins⟩

/-- The first half: the text that a line starts with. -/
theorem writeHeader_eq (junk : List UInt8) (level : LogLevel) (tid : Int) (currst : Datetime)
    {logstr : List UInt8} (hlen : logstr.length = 2048) :
    ∃ p, writeHeader junk level tid currst logstr maximumLogBufferSize =
      some (p, ((header level tid currst).length : Int)) ∧ Begins p (header level tid currst) := by
  have htime := length_timeText currst
  have hlevel := length_levelText level
  have hthread := (length_threadText tid).2
  have hstart : Begins logstr [] := ⟨List.nil_prefix, hlen⟩
  obtain ⟨p₁, hprint₁, h₁⟩ := hstart.crtSprintf junk (timeText currst) rfl rfl
    (by rw [List.length_nil]; omega)
  obtain ⟨p₂, hprint₂, h₂⟩ := h₁.mono.crtSprintf junk (levelText level) rfl rfl
    (by rw [List.nil_append]; omega)
  obtain ⟨p₃, hprint₃, h₃⟩ := h₂.mono.crtSprintf junk (threadText tid) rfl rfl
    (by rw [List.nil_append, List.length_append]; omega)
  rw [List.nil_append] at h₃ hprint₂ hprint₃
  rw [List.length_append, Nat.cast_add] at hprint₃
  refine ⟨p₃, ?_, h₃.mono⟩
  rw [List.length_nil, Nat.cast_zero] at hprint₁
  simp only [writeHeader, hprint₁, Option.bind_eq_bind, Option.bind_some, Int.zero_add, hprint₂,
    hprint₃, header, List.length_append, Nat.cast_add]

/-- The part of the message that is written, up to its first NUL. -/
def shown (room : Nat) (message : List UInt8) : List UInt8 := cstring (message.take room)

/-- The line break behind a text, and the end of the string. -/
theorem Begins.lineBreak (h : Begins p (pre ++ t)) (junk : List UInt8) {pos : Int}
    (hpos : pos = pre.length) (hroom : pre.length + 3 ≤ 2048) :
    ∃ p', ((Logger.crtSprintf junk p pos (maximumLogBufferSize - pos) posixEol).bind fun r =>
      writeAt r.1 (pos + r.2) [0]) = some p' ∧ Begins p' (pre ++ posixEol ++ [0]) := by
  obtain ⟨p', hprint, hbegins⟩ := h.mono.crtSprintf junk posixEol hpos rfl hroom
  have hend : ((pre ++ posixEol).length : Int) = pos + (posixEol.length : Nat) := by
    rw [List.length_append, hpos, Nat.cast_add]
  obtain ⟨hwrite, h'⟩ := hbegins.mono.write (t := [0]) (by
    rw [List.length_append]
    exact Nat.le_trans (Nat.le_succ _) hroom)
  rw [hend] at hwrite
  refine ⟨_, ?_, h'⟩
  rw [hprint, Option.bind_some]
  exact hwrite

/-- The room that is left for the message, with one byte for the NUL. -/
theorem room_eq {n : Nat} (h : n ≤ 63) :
    int32 (maximumLogBufferSize - n - 1 - sizeofEol) = (2045 - n : Nat) := by
  rw [maximumLogBufferSize, sizeofEol, Lib.int32_of_inInt32 ⟨by omega, by omega⟩]
  omega

/-- The message is printed behind the start of the line, as far as there is room, and then comes the
line break: at the end of the buffer where the message was cut. -/
theorem writeMessage_printed (h : Begins p pre) (hshort : pre.length ≤ 63) (junk : List UInt8)
    {message : List UInt8} (hlen : message.length < 2 ^ 31) {pos : Int}
    (hpos : pos = if 2045 - pre.length ≤ message.length then 2045
      else (pre.length : Int) + message.length) :
    ∃ p', Begins p' (pre ++ message.take (2044 - pre.length) ++ [0]) ∧
      writeMessage junk message p pre.length maximumLogBufferSize =
        (Logger.crtSprintf junk p' pos (maximumLogBufferSize - pos) posixEol).bind fun r =>
          writeAt r.1 (pos + r.2) [0] := by
  have hsize : 0 < 2045 - pre.length := by omega
  obtain ⟨p', hprint, h'⟩ := h.vsnprintf (t := message) junk hsize hlen (by omega)
  rw [show 2045 - pre.length - 1 = 2044 - pre.length by omega] at h'
  refine ⟨p', h', ?_⟩
  rw [writeMessage, room_eq hshort, sizeT_natCast (by omega), hprint, hpos]
  simp only [Option.bind_eq_bind, Option.bind_some, ge_iff_le, Nat.cast_le]
  rfl

/-- A message that does not fit: the line break is behind the end of the string. -/
theorem writeMessage_cut (h : Begins p pre) (hpre : NoNul pre) (hshort : pre.length ≤ 63)
    (junk : List UInt8) {message : List UInt8} (hlen : message.length < 2 ^ 31)
    (hcut : 2045 - pre.length ≤ message.length) :
    ∃ p', writeMessage junk message p pre.length maximumLogBufferSize = some p' ∧
      (0 : UInt8) ∈ p' ∧ cstring p' = pre ++ shown (2044 - pre.length) message := by
  obtain ⟨p₁, h₁, hprint⟩ := writeMessage_printed h hshort junk hlen (if_pos hcut).symm
  have hlast : (2045 : Int) = (pre ++ message.take (2044 - pre.length) ++ [0]).length := by
    simp only [List.length_append, List.length_take, List.length_cons, List.length_nil]
    omega
  have hroom : (pre ++ message.take (2044 - pre.length) ++ [0]).length + 3 ≤ 2048 := by omega
  obtain ⟨p₂, hbreak, h₂⟩ := Begins.lineBreak (t := []) (by rwa [List.append_nil]) junk hlast hroom
  obtain ⟨hchars, hend⟩ := h₂.mono.mono.chars hpre
  exact ⟨p₂, hprint.trans hbreak, hend, hchars⟩

/-- A message that fits: the line break is behind it, or behind its first NUL. -/
theorem writeMessage_fits (h : Begins p pre) (hpre : NoNul pre) (hshort : pre.length ≤ 63)
    (junk : List UInt8) {message : List UInt8} (hfits : message.length < 2045 - pre.length) :
    ∃ p', writeMessage junk message p pre.length maximumLogBufferSize = some p' ∧
      (0 : UInt8) ∈ p' ∧ cstring p' = pre ++ cstring (message ++ posixEol) := by
  obtain ⟨p₁, h₁, hprint⟩ := writeMessage_printed h hshort junk (by omega)
    (if_neg (Nat.not_le.mpr hfits)).symm
  rw [List.take_of_length_le (by omega)] at h₁
  have hplace : (pre.length : Int) + message.length = (pre ++ message).length := by
    rw [List.length_append, Nat.cast_add]
  obtain ⟨p₂, hbreak, h₂⟩ := h₁.lineBreak junk hplace (by rw [List.length_append]; omega)
  rw [List.append_assoc pre] at h₂
  obtain ⟨hchars, hend⟩ := h₂.chars hpre
  exact ⟨p₂, hprint.trans hbreak, hend, hchars⟩

/-- The second half, for a message whose length is an `int`. -/
theorem writeMessage_eq (h : Begins p pre) (hpre : NoNul pre) (hshort : pre.length ≤ 63)
    (junk : List UInt8) {message : List UInt8} (hlen : message.length < 2 ^ 31) :
    ∃ p', writeMessage junk message p pre.length maximumLogBufferSize = some p' ∧
      (0 : UInt8) ∈ p' ∧ cstring p' = pre ++ if shown (2044 - pre.length) message = message
        then message ++ posixEol else shown (2044 - pre.length) message := by
  by_cases hcut : 2045 - pre.length ≤ message.length
  · have hne : shown (2044 - pre.length) message ≠ message := by
      intro heq
      have hle := (cstring_prefix_self (message.take (2044 - pre.length))).length_le
      rw [← shown, heq, List.length_take] at hle
      omega
    rw [if_neg hne]
    exact writeMessage_cut h hpre hshort junk hlen hcut
  · obtain ⟨p', hwrite, hend, hchars⟩ :=
      writeMessage_fits h hpre hshort junk (Nat.lt_of_not_le hcut)
    refine ⟨p', hwrite, hend, ?_⟩
    rw [hchars, shown, List.take_of_length_le (by omega)]
    by_cases hnul : NoNul message
    · have heol : NoNul posixEol := by decide
      rw [if_pos (cstring_eq_self.mpr hnul),
        cstring_eq_self.mpr (noNul_append hnul heol)]
    · rw [if_neg (mt cstring_eq_self.mp hnul), cstring_append_of_mem (not_not.mp hnul)]

/-- The second half, for a message whose length is not an `int`: the result is negative, and the
line break replaces the last character in front of the message. -/
theorem writeMessage_long (h : Begins p pre) (hpre : NoNul pre) (hpos : 0 < pre.length)
    (hshort : pre.length ≤ 63) (junk : List UInt8) {message : List UInt8}
    (hlen : 2 ^ 31 ≤ message.length) :
    ∃ p', writeMessage junk message p pre.length maximumLogBufferSize = some p' ∧
      cstring p' = pre.dropLast ++ posixEol := by
  have hjunk := List.length_take_le (2045 - pre.length) junk
  obtain ⟨hwrite, h₁⟩ := h.write (t := junk.take (2045 - pre.length)) (by omega)
  have hplace : (pre.length : Int) + -1 = pre.dropLast.length := by
    rw [List.length_dropLast]
    omega
  have hless : pre.dropLast.length + 3 ≤ 2048 := by
    rw [List.length_dropLast]
    omega
  have h₂ : Begins (overwrite p pre.length (junk.take (2045 - pre.length)))
      (pre.dropLast ++ []) := by
    rw [List.append_nil]
    exact ⟨(List.dropLast_prefix pre).trans h₁.mono.text, h₁.length⟩
  obtain ⟨p₃, hbreak, h₃⟩ := h₂.lineBreak junk hplace hless
  rw [List.append_assoc] at h₃
  have hdrop : NoNul (pre.dropLast ++ posixEol) :=
    noNul_append (fun hmem => hpre (List.mem_of_mem_dropLast hmem)) (by decide)
  refine ⟨p₃, ?_, ?_⟩
  · rw [writeMessage, room_eq hshort, sizeT_natCast (by omega), Logger.vsnprintf,
      if_neg (by omega), hwrite, Option.map_some]
    simp only [Option.bind_eq_bind, Option.bind_some]
    rw [if_neg (by omega)]
    exact hbreak
  · rw [← List.append_assoc, ← List.append_nil (pre.dropLast ++ posixEol)] at h₃
    rw [(h₃.chars hdrop).1]
    exact List.append_nil _

end Buffer

/-! ## The line -/

/-- What is asked of a line: nothing is written outside of the buffer, and the string in it is what
a line starts with, the message or a part of it, and the line break. -/
def EndsLine (level : LogLevel) (tid : Int) (currst : Datetime) (message : List UInt8) : Prop :=
  ∀ junk logstr : List UInt8, logstr.length = 2048 →
    ∃ p, formatLogString junk level tid message currst logstr maximumLogBufferSize = some p ∧
      (0 : UInt8) ∈ p ∧ ∃ t, t <+: message ∧ cstring p = header level tid currst ++ t ++ posixEol

theorem formatLogString_eq (junk : List UInt8) (level : LogLevel) (tid : Int) (currst : Datetime)
    (message : List UInt8) {logstr : List UInt8} (hlen : logstr.length = 2048) :
    ∃ p, Begins p (header level tid currst) ∧
      formatLogString junk level tid message currst logstr maximumLogBufferSize =
        writeMessage junk message p (header level tid currst).length maximumLogBufferSize := by
  obtain ⟨p, hheader, h⟩ := writeHeader_eq junk level tid currst hlen
  refine ⟨p, h, ?_⟩
  rw [formatLogString, hheader]
  rfl

section Line

variable {level : LogLevel} {tid : Int} {currst : Datetime} {message : List UInt8}

/-- A message whose length is not an `int` takes a character from the start of the line. -/
theorem EndsLine.length_lt (h : EndsLine level tid currst message) : message.length < 2 ^ 31 := by
  obtain ⟨hpos, hshort⟩ := length_header level tid currst
  have hroom : (List.replicate 2048 (0 : UInt8)).length = 2048 := List.length_replicate
  obtain ⟨p, hformat, -, t, -, hchars⟩ := h [] _ hroom
  obtain ⟨q, hq, heq⟩ := formatLogString_eq [] level tid currst message hroom
  rw [hformat] at heq
  by_contra hlong
  obtain ⟨p', hwrite, hcut⟩ := writeMessage_long hq (noNul_header level tid currst) hpos hshort []
    (Nat.le_of_not_lt hlong)
  obtain rfl := Option.some.inj (heq.trans hwrite)
  have hsame := congrArg List.length (hchars.symm.trans hcut)
  have hone : posixEol.length = 1 := rfl
  simp only [List.length_append, List.length_dropLast, hone] at hsame
  omega

/-- What is written of the message is all of it, or ends with a line break. -/
theorem EndsLine.shown (h : EndsLine level tid currst message) :
    shown (2044 - (header level tid currst).length) message = message ∨
      (shown (2044 - (header level tid currst).length) message).getLast? = some 0x0A := by
  have hroom : (List.replicate 2048 (0 : UInt8)).length = 2048 := List.length_replicate
  obtain ⟨p, hformat, -, t, -, hchars⟩ := h [] _ hroom
  obtain ⟨q, hq, heq⟩ := formatLogString_eq [] level tid currst message hroom
  rw [hformat] at heq
  obtain ⟨p', hwrite, -, hshown⟩ := writeMessage_eq hq (noNul_header level tid currst)
    (length_header level tid currst).2 [] h.length_lt
  obtain rfl := Option.some.inj (heq.trans hwrite)
  rw [hchars, List.append_assoc, List.append_cancel_left_eq] at hshown
  by_cases hfit : Logger.shown (2044 - (header level tid currst).length) message = message
  · exact .inl hfit
  · rw [if_neg hfit] at hshown
    rw [← hshown]
    exact .inr (List.getLast?_append_of_ne_nil _ (by decide))

end Line

/-- **The messages whose line ends with a line break**: those that fit into the buffer, and those
where the last character that fits is one. -/
theorem endsLine_iff (level : LogLevel) (tid : Int) (currst : Datetime) (message : List UInt8) :
    EndsLine level tid currst message ↔ message.length < 2 ^ 31 ∧
      (shown (2044 - (header level tid currst).length) message = message ∨
        (shown (2044 - (header level tid currst).length) message).getLast? = some 0x0A) := by
  constructor
  · exact fun h => ⟨h.length_lt, h.shown⟩
  · rintro ⟨hlen, hcase⟩ junk logstr hroom
    obtain ⟨q, hq, heq⟩ := formatLogString_eq junk level tid currst message hroom
    obtain ⟨p, hwrite, hend, hshown⟩ := writeMessage_eq hq (noNul_header level tid currst)
      (length_header level tid currst).2 junk hlen
    refine ⟨p, heq.trans hwrite, hend, ?_⟩
    by_cases hfit : shown (2044 - (header level tid currst).length) message = message
    · refine ⟨message, List.prefix_rfl, ?_⟩
      rw [hshown, if_pos hfit, List.append_assoc]
    · obtain ⟨t, ht⟩ := List.getLast?_eq_some_iff.mp (hcase.resolve_left hfit)
      refine ⟨t, ?_, ?_⟩
      · have hprefix : shown (2044 - (header level tid currst).length) message <+: message :=
          (cstring_prefix_self _).trans (List.take_prefix _ _)
        rw [ht] at hprefix
        exact (List.prefix_append t _).trans hprefix
      · rw [hshown, if_neg hfit, ht, List.append_assoc]
        rfl

/-- A message of 2044 characters: the string in the buffer has no line break. -/
theorem endsLine_not : ¬EndsLine .info 0 ⟨0, 0, 0, 0⟩ (List.replicate 2044 0x61) := by
  intro h
  obtain ⟨hpos, hshort⟩ := length_header .info 0 ⟨0, 0, 0, 0⟩
  have hshown : shown (2044 - (header .info 0 ⟨0, 0, 0, 0⟩).length) (List.replicate 2044 0x61) =
      List.replicate (2044 - (header .info 0 ⟨0, 0, 0, 0⟩).length) 0x61 := by
    rw [shown, List.take_replicate, Nat.min_eq_left (by omega), cstring_eq_self]
    exact fun hmem => absurd (List.eq_of_mem_replicate hmem) (by decide)
  rcases h.shown with hall | hlast
  · rw [hshown] at hall
    have hlen := congrArg List.length hall
    rw [List.length_replicate, List.length_replicate] at hlen
    omega
  · rw [hshown, List.getLast?_replicate, if_neg (by omega)] at hlast
    exact absurd (Option.some.inj hlast) (by decide)

end Logger

end LibNax
