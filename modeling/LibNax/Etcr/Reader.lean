import LibNax.Common
import LibNax.Avl.Tree
import LibNax.Evfs.Entries
import LibNax.Naos.Cmdline

/-!
# The configuration reader

`etc_reader.c`: a text of lines is copied to a buffer and cut up there, in place.  A line is cut at
its end and at `#`, and is trimmed; a pair is cut at `=`, and both parts are trimmed.  The pairs are
in a search tree by `strcmp`.

* `etcrTrim`, `etcrFilter` — what is done to a string.
* `parseChar`, `etcrParseLine` — the loop over the characters.
* `parsePair`, `etcrParseKvpair` — the loop over the lines.
* `etcrLoadFromMemory`, `etcrQueryValueByKey` — the two calls.

A pointer is a position in the buffer.  Where something outside of the buffer is read or written,
there is no result.
-/

set_option autoImplicit false

namespace LibNax

namespace Etcr

open Naos (strchr strlen)
open Evfs (strcmp)

/-! ## Characters and status -/

def lineFeed : UInt8 := 0x0A

def carriageReturn : UInt8 := 0x0D

def hash : UInt8 := 0x23

def equals : UInt8 := 0x3D

/-! ## Strings -/

/-- The loop of `_etcr_trim` from the tail on; the argument is the position behind the tail. -/
def trimTail : List UInt8 → Nat → Option (List UInt8)
  | _, 0 => none
  | data, tail + 1 =>
    match data[tail]? with
    | none => none
    | some c => if c = space then trimTail (data.set tail 0) tail else some data

/-- `_etcr_trim`: the buffer, and the head of the string. -/
def etcrTrim (data : List UInt8) (pos : Nat) : Option (List UInt8 × Nat) := do
  let skipped ← (data.drop pos).findIdx? (· ≠ space)
  let head := pos + skipped
  let len ← strlen data head
  let data ← trimTail data (head + len)
  some (data, head)

/-- `_etcr_filter`: the buffer, and the head of the string or the null pointer. -/
def etcrFilter (data : List UInt8) (line : Nat) : Option (List UInt8 × Option Nat) := do
  let skipped ← (data.drop line).findIdx? fun c => c = hash || c = 0
  let cursor := line + skipped
  let data := if data[cursor]? = some hash then data.set cursor 0 else data
  let first ← data[line]?
  if first = 0 then some (data, none)
  else do
    let (data, head) ← etcrTrim data line
    some (data, some head)

/-! ## Lines -/

/-- The buffer, the line that has begun, and the list of lines. -/
structure LineState where
  data : List UInt8
  line : Option Nat
  lines : List Nat

/-- A round of the loop of `_etcr_parse_line`; `malloc` says whether there is memory for the line
that begins at a position.  The inner `none` is its break. -/
def parseChar (malloc : Nat → Bool) (s : LineState) (i : Nat) : Option (Option LineState) :=
  match s.line with
  | none => if malloc i then some (some { s with line := some i }) else some none
  | some line => do
    let cursor ← s.data[i]?
    if cursor = lineFeed then
      let (data, head) ← etcrFilter (s.data.set i 0) line
      some (some { data, line := none, lines := s.lines ++ head.toList })
    else if cursor = carriageReturn then some (some { s with data := s.data.set i 0 })
    else some (some s)

/-- The loop of `_etcr_parse_line`, over the characters that are left. -/
def parseChars (malloc : Nat → Bool) : Nat → Nat → LineState → Option (Option LineState)
  | 0, _, s => some (some s)
  | n + 1, i, s => do
    match ← parseChar malloc s i with
    | none => some none
    | some s => parseChars malloc n (i + 1) s

/-- `_etcr_parse_line`: the buffer and the lines, or that there is no memory. -/
def etcrParseLine (malloc : Nat → Bool) (data : List UInt8) :
    Option (Option (List UInt8 × List Nat)) :=
  (parseChars malloc data.length 0 ⟨data, none, []⟩).map fun s => s.map fun s => (s.data, s.lines)

/-! ## Pairs -/

/-- A pointer to a string: into the buffer, or to what a caller has. -/
inductive CharPtr where
  | data (pos : Nat)
  | caller (s : List UInt8)

/-- `struct etcr_kv_pair`. -/
structure KvPair where
  key : CharPtr
  value : Nat

/-- The bytes from a pointer on. -/
def CharPtr.bytes (data : List UInt8) : CharPtr → List UInt8
  | .data pos => data.drop pos
  | .caller s => s

/-- `_etcr_key_compare`. -/
def etcrKeyCompare (data : List UInt8) (left right : KvPair) : Int :=
  strcmp (left.key.bytes data) (right.key.bytes data)

/-- The buffer, `root_of_kvpair`, and how many pairs there was to be memory for. -/
structure PairState where
  data : List UInt8
  root : Avl.Tree KvPair
  asked : Nat

/-- A round of the loop of `_etcr_parse_kvpair`; `malloc` says for which of the pairs there is
memory.  A line without a pair is freed. -/
def parsePair (malloc : Nat → Bool) (s : PairState) (line : Nat) : Option PairState := do
  match ← strchr s.data line equals with
  | none => some s
  | some chr =>
    if malloc s.asked then
      let (data, key) ← etcrTrim (s.data.set chr 0) line
      let (data, value) ← etcrTrim data (chr + 1)
      let kvpair := ⟨.data key, value⟩
      some ⟨data, Avl.avlinsert (etcrKeyCompare data) s.root kvpair, s.asked + 1⟩
    else some { s with asked := s.asked + 1 }

/-- `_etcr_parse_kvpair`. -/
def etcrParseKvpair (malloc : Nat → Bool) (data : List UInt8) (lines : List Nat) :
    Option PairState :=
  lines.foldlM (parsePair malloc) ⟨data, .nil, 0⟩

/-! ## The calls -/

/-- What there is memory for: the buffer, the line that begins at a position, the pairs. -/
structure Memory where
  buffer : Bool
  line : Nat → Bool
  pair : Nat → Bool

/-- What is behind a handle: the buffer and `root_of_kvpair`. -/
structure File where
  data : List UInt8
  root : Avl.Tree KvPair

/-- `etcr_load_from_memory`: the status, and the file where that is `0`. -/
def etcrLoadFromMemory (memory : Memory) (buffer : List UInt8) : Option (Int × Option File) :=
  if buffer.length = 0 then some (eInval, none)
  else if memory.buffer then do
    match ← etcrParseLine memory.line buffer with
    | none => some (eNomem, none)
    | some (data, lines) =>
      let s ← etcrParseKvpair memory.pair data lines
      some (0, some ⟨s.data, s.root⟩)
  else some (eNomem, none)

/-- `etcr_query_value_bykey`: the status, and the string that `value` points to. -/
def etcrQueryValueByKey (file : File) (key : List UInt8) : Int × Option (List UInt8) :=
  match Avl.avlsearch (etcrKeyCompare file.data) file.root ⟨.caller key, 0⟩ with
  | some kvpair => (0, some (cstring (file.data.drop kvpair.value)))
  | none => (eNoent, none)

end Etcr

end LibNax
