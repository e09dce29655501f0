import LibNax.Common
import Mathlib.Algebra.GroupWithZero.Nat
import LibNax.Lib.Bytes

/-!
# The receiving side of a TCP link

A link cuts the byte stream of its socket back into packets.  Every packet starts with a header of
`cb` bytes, and a parser that belongs to the link reads the length of what follows off it.

* `Template` — the header size and the parser, and `Link` what is fixed for a link.
* `Rx` — the buffers: the parse buffer with its offset, the large block, and the packets handed to
  the user so far.
* `tcpParseMarkedLb`, `tcpParsePkt` and `tcpRx` — the functions of the source.  A copy that would
  leave its buffer, or have a negative length, makes the result undefined (`none`).

The integers of the source are `Int`; no sum of the ones that occur reaches `2 ^ 31`, since the user
length is tested against `tcpMaximumPacketSize` before it is used.
-/

set_option autoImplicit false

namespace LibNax

namespace Tcp

open Lib (memcpy)

/-- `TCP_BUFFER_SIZE`. -/
def tcpBufferSize : Nat := 0x11000

/-- `TCP_MAXIMUM_PACKET_SIZE`. -/
def tcpMaximumPacketSize : Nat := 50 * 2 ^ 20

/-- `tst_t`: the size of the header, and the parser if there is one.  The parser sees the bytes it
is given and returns a status and the length of the user data. -/
structure Template where
  /-- The size of the header. -/
  cb : Nat
  /-- The parser, or null. -/
  parser : Option (List UInt8 → Int × Int)

/-- What is fixed for a link while it receives. -/
structure Link where
  /-- The protocol template. -/
  template : Template
  /-- Whether the attribute `LINKATTR_TCP_FULLY_RECEIVE` is set. -/
  fullyReceive : Bool
  /-- Whether the allocator has memory for a block of this size. -/
  ztrymalloc : Int → Bool

/-- The receiving half of the control block. -/
structure Rx where
  /-- The parse buffer. -/
  rxParseBuffer : List UInt8
  /-- How far it is filled. -/
  rxParseOffset : Int
  /-- The large block, or null. -/
  lbdata : Option (List UInt8)
  /-- How far it is filled. -/
  lboffset : Int
  /-- Its size. -/
  lbsize : Int
  /-- The packets given to `ncb_post_recvdata`, in order. -/
  posts : List (List UInt8)

/-- The buffers of a link that has received nothing. -/
def Rx.init (rxParseBuffer : List UInt8) : Rx := ⟨rxParseBuffer, 0, none, 0, 0, []⟩

/-- `ncb_post_recvdata` with the first `cb` bytes at `off` of a buffer. -/
def Rx.post (s : Rx) (buffer : List UInt8) (off cb : Int) : Rx :=
  { s with posts := s.posts ++ [(buffer.drop off.toNat).take cb.toNat] }

/-- `ncb_lb_marked`. -/
def Rx.lbMarked (s : Rx) : Bool := s.lbdata.isSome && decide (s.lbsize > 0)

/-- `_tcp_parse_marked_lb`: the next data for a large block.  The result is the number of bytes left
over. -/
def tcpParseMarkedLb (link : Link) (s : Rx) (cpbuff : List UInt8) : Option (Rx × Int) := do
  let lbdata ← s.lbdata
  let cpcb : Int := cpbuff.length
  if cpcb + s.lboffset < s.lbsize then
    let lbdata ← memcpy lbdata s.lboffset cpbuff 0 cpcb
    return ({ s with lbdata := some lbdata, lboffset := s.lboffset + cpcb }, 0)
  else
    let overplus := s.lbsize - s.lboffset
    let lbdata ← memcpy lbdata s.lboffset cpbuff 0 overplus
    let cb : Int := link.template.cb
    let s := if link.fullyReceive then s.post lbdata 0 s.lbsize
      else s.post lbdata cb (s.lbsize - cb)
    return ({ s with lbdata := none, lboffset := 0, lbsize := 0 }, cpcb - overplus)

/-- The part of `tcp_parse_pkt` after the header is complete: `used` bytes of `data` went into
it. -/
def tcpParseBody (link : Link) (s : Rx) (data : List UInt8) (used : Int) : Option (Rx × Int) := do
  let cb : Int := link.template.cb
  let overplus := data.length - used
  match link.template.parser with
  | none => return (s, -1)
  | some parser =>
    let (status, userDataSize) := parser (s.rxParseBuffer.take s.rxParseOffset.toNat)
    if status < 0 then return (s, -1)
    else if userDataSize > tcpMaximumPacketSize ∨ userDataSize ≤ 0 then return (s, -1)
    else
      let totalPacketLength := userDataSize + cb
      if totalPacketLength > tcpBufferSize then
        if !link.ztrymalloc totalPacketLength then return (s, -1)
        else
          -- the whole of the data, from its first byte on, and nothing of the parse buffer
          let lbdata ← memcpy (List.replicate totalPacketLength.toNat 0) 0 data 0 data.length
          return ({ s with lbdata := some lbdata, lbsize := totalPacketLength,
                           lboffset := data.length, rxParseOffset := 0 }, 0)
      else if s.rxParseOffset + overplus ≥ totalPacketLength then
        let buffer ← memcpy s.rxParseBuffer s.rxParseOffset data used
          (totalPacketLength - s.rxParseOffset)
        let retcb := overplus - (totalPacketLength - s.rxParseOffset)
        let s := { s with rxParseBuffer := buffer }
        let s := if link.fullyReceive then s.post buffer 0 (userDataSize + cb)
          else s.post buffer cb userDataSize
        return ({ s with rxParseOffset := 0 }, retcb)
      else
        let buffer ← memcpy s.rxParseBuffer s.rxParseOffset data used overplus
        return ({ s with rxParseBuffer := buffer, rxParseOffset := s.rxParseOffset + overplus }, 0)

/-- `tcp_parse_pkt`: the number of bytes left over, `-1` when the link has to be closed. -/
def tcpParsePkt (link : Link) (s : Rx) (data : List UInt8) : Option (Rx × Int) := do
  let cb : Int := link.template.cb
  let cpcb : Int := data.length
  if cpcb = 0 then return (s, -1)
  else if cb = 0 ∧ link.template.parser.isNone then
    return ({ s.post data 0 cpcb with rxParseOffset := 0 }, 0)
  else if s.lbMarked then tcpParseMarkedLb link s data
  else if s.rxParseOffset + cpcb < cb then
    let buffer ← memcpy s.rxParseBuffer s.rxParseOffset data 0 cpcb
    return ({ s with rxParseBuffer := buffer, rxParseOffset := s.rxParseOffset + cpcb }, 0)
  else if s.rxParseOffset < cb then
    let used := cb - s.rxParseOffset
    let buffer ← memcpy s.rxParseBuffer s.rxParseOffset data 0 used
    tcpParseBody link { s with rxParseBuffer := buffer, rxParseOffset := cb } data used
  else tcpParseBody link s data 0

/-- What `ncb_recvdata` yields: data in the receive buffer, the end of the stream, or an error. -/
inductive Recv where
  | data (rxBuffer : List UInt8)
  | shutdown
  | error (errno : Int)

/-- `ECONNRESET`, as the status that `posix__makeerror` makes of it. -/
def econnreset : Int := -104

/-- The loop of `_tcp_rx` over what is left of the receive buffer.  Every round of it takes at least
one byte, so the length of the buffer is fuel enough. -/
def tcpRxLoop (link : Link) : Nat → Rx → List UInt8 → Option (Rx × Int)
  | 0, _, _ => none
  | fuel + 1, s, data => do
    let (s, overplus) ← tcpParsePkt link s data
    if overplus < 0 then return (s, nspStatusFatal)
    else if overplus > 0 then
      tcpRxLoop link fuel s (data.drop (data.length - overplus.toNat))
    else return (s, 0)

/-- `_tcp_rx`. -/
def tcpRx (link : Link) (s : Rx) : Recv → Option (Rx × Int)
  | .data rxBuffer => tcpRxLoop link rxBuffer.length s rxBuffer
  | .shutdown => some (s, econnreset)
  | .error errno => some (s, -errno)

/-- The calls of `_tcp_rx` for a sequence of chunks.  The link is closed at the first failure. -/
def tcpRxChunks (link : Link) : Rx → List (List UInt8) → Option (Rx × Int)
  | s, [] => some (s, 0)
  | s, chunk :: chunks => do
    let (s, status) ← tcpRx link s (.data chunk)
    if status < 0 then return (s, status)
    else tcpRxChunks link s chunks

end Tcp

end LibNax
