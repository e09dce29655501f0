import LibNax.Common
import Mathlib.Data.Vector.Basic
import LibNax.Tcp.Parse

/-!
# The transmit queue of a link

A packet that the kernel does not take at once is kept in a queue of the link, and the worker of the
pool finishes it when the socket can be written again.

* `TxNode` and `TxFifo` — the nodes and the queue.
* `fifoQueue`, `fifoTop`, `fifoPop`, `fifoTxOverflow` — the functions of the source, each the part
  between taking the lock of the queue and releasing it.  Where the source goes on to change the
  epoll events after the lock is released, the result says so.
* `tcpWriteNode` — the part of `tcp_write` that builds the packet.
-/

set_option autoImplicit false

namespace LibNax

namespace Tcp

/-- `MAXIMUM_FIFO_SIZE`. -/
def maximumFifoSize : Nat := 100

/-- `struct tx_node`.  The source keeps the length of the data in `wcb`. -/
structure TxNode where
  /-- Which call of `tcp_write` the node belongs to. -/
  call : Nat
  /-- The packet. -/
  data : List UInt8
  /-- How much of it has been handed to the kernel. -/
  offset : Nat

/-- What is left to send. -/
def TxNode.rest (n : TxNode) : List UInt8 := n.data.drop n.offset

/-- `node->offset += wcb`. -/
def TxNode.advance (n : TxNode) (wcb : Nat) : TxNode := { n with offset := n.offset + wcb }

@[simp] theorem TxNode.advance_call (n : TxNode) (wcb : Nat) : (n.advance wcb).call = n.call := rfl

@[simp] theorem TxNode.advance_data (n : TxNode) (wcb : Nat) : (n.advance wcb).data = n.data := rfl

@[simp] theorem TxNode.advance_offset (n : TxNode) (wcb : Nat) :
    (n.advance wcb).offset = n.offset + wcb := rfl

theorem TxNode.take_append_rest (n : TxNode) : n.data.take n.offset ++ n.rest = n.data :=
  List.take_append_drop _ _

theorem TxNode.take_rest_append (n : TxNode) (wcb : Nat) :
    n.rest.take wcb ++ (n.advance wcb).rest = n.rest := by
  rw [rest, rest, advance_data, advance_offset, ← List.drop_drop, List.take_append_drop]

theorem TxNode.take_append_take_rest (n : TxNode) (wcb : Nat) :
    n.data.take n.offset ++ n.rest.take wcb = n.data.take (n.offset + wcb) := by
  rw [rest, ← List.take_add]

theorem TxNode.rest_of_done {n : TxNode} (h : n.data.length ≤ n.offset) : n.rest = [] :=
  List.drop_of_length_le h

theorem TxNode.rest_of_fresh {n : TxNode} (h : n.offset = 0) : n.rest = n.data := by
  rw [rest, h, List.drop_zero]

/-- `struct tx_fifo`. -/
structure TxFifo where
  /-- The link waits until its socket can be written. -/
  txOverflow : Bool
  /-- The number of nodes. -/
  size : Nat
  /-- The nodes, the oldest first. -/
  head : List TxNode

/-- `fifo_init`. -/
def fifoInit : TxFifo := ⟨false, 0, []⟩

/-- `fifo_queue`, with the status that `io_modify(ncb, EPOLLIN | EPOLLOUT)` returns if it is called.
The last component says whether the link is now registered for `EPOLLOUT` by this call. -/
def fifoQueue (f : TxFifo) (node : TxNode) (ioModify : Int) : Int × TxFifo × Bool :=
  if maximumFifoSize ≤ f.size then (eBusy, f, false)
  else if f.txOverflow then (0, ⟨true, f.size + 1, f.head ++ [node]⟩, false)
  else if nspSuccess ioModify then (ioModify, ⟨true, f.size + 1, f.head ++ [node]⟩, true)
  else (ioModify, f, false)

/-- `fifo_top`: the first node, or `ENOENT`. -/
def fifoTop (f : TxFifo) : Option TxNode := f.head.head?

/-- `fifo_pop` up to the release of the lock: the queue without its first node, and whether the
overflow is canceled, for which `io_modify(ncb, EPOLLIN)` follows; or `ENOENT`. -/
def fifoPop (f : TxFifo) : Option (TxFifo × Bool) :=
  match f.head with
  | [] => none
  | _ :: nodes =>
    if f.size - 1 = 0 then some (⟨false, f.size - 1, nodes⟩, f.txOverflow)
    else some (⟨f.txOverflow, f.size - 1, nodes⟩, false)

/-- What is fixed for a link while it sends. -/
structure TxLink where
  /-- The protocol template. -/
  template : Template
  /-- The builder of the template, or null.  It is told the length of the user data, and either
  fails or fills the header. -/
  builder : Option (Nat → Except Int (List.Vector UInt8 template.cb))
  /-- Whether the attribute `LINKATTR_TCP_NO_BUILD` is set. -/
  noBuild : Bool
  /-- Whether the attribute `LINKATTR_NONBLOCK` is set. -/
  nonblock : Bool

/-- `fifo_tx_overflow`. -/
def fifoTxOverflow (l : TxLink) (f : TxFifo) : Bool :=
  if l.nonblock then f.txOverflow else false

/-- The arguments of `tcp_write` and what the calls into the allocator return. -/
structure TcpWrite where
  /-- The user data, null as the empty list. -/
  origin : List UInt8
  /-- The serializer, or null: it either fails or fills a buffer of the length of the user data. -/
  serializer : Option ((o : List UInt8) → Except Int (List.Vector UInt8 o.length))
  /-- Whether there is memory for the packet. -/
  mallocBuffer : Bool
  /-- Whether there is memory for the node. -/
  mallocNode : Bool

/-- The user data as it stands in the packet. -/
def TcpWrite.serialize (w : TcpWrite) : Except Int (List UInt8) :=
  match w.serializer with
  | some f => (f w.origin).map (·.toList)
  | none => .ok w.origin

/-- `tcp_write` up to the test of the queue: the packet of an established link, or the status the
call returns. -/
def tcpWriteNode (l : TxLink) (w : TcpWrite) (call : Nat) : Except Int TxNode :=
  if w.origin.length = 0 ∨ tcpMaximumPacketSize < w.origin.length then .error eInval
  else if !w.mallocBuffer then .error eNomem
  else
    let buffer : Except Int (List UInt8) :=
      match l.builder with
      | none => w.serialize
      | some builder =>
        if l.noBuild then w.serialize
        else do
          let header ← builder w.origin.length
          let body ← w.serialize
          return header.toList ++ body
    match buffer with
    | .error status => .error status
    | .ok data => if w.mallocNode then .ok ⟨call, data, 0⟩ else .error eNomem

/-! ## What the operations do -/

theorem serialize_length {w : TcpWrite} {body : List UInt8} (h : w.serialize = .ok body) :
    body.length = w.origin.length := by
  rw [TcpWrite.serialize] at h
  split at h
  · rename_i f _
    cases hf : f w.origin with
    | error status => rw [hf] at h; cases h
    | ok v =>
      rw [hf] at h
      cases h
      exact v.toList_length
  · cases h
    rfl

/-- A node starts with nothing sent, and its packet is not empty. -/
theorem tcpWriteNode_ok {l : TxLink} {w : TcpWrite} {call : Nat} {n : TxNode}
    (h : tcpWriteNode l w call = .ok n) : n.call = call ∧ n.offset = 0 ∧ 0 < n.data.length := by
  rw [tcpWriteNode] at h
  split at h
  · cases h
  split at h
  · cases h
  rename_i horigin _
  have hpos : 0 < w.origin.length := by omega
  dsimp only at h
  split at h
  · cases h
  rename_i data hdata
  split at h
  · cases h
    refine ⟨rfl, rfl, ?_⟩
    show 0 < data.length
    split at hdata
    · exact serialize_length hdata ▸ hpos
    split at hdata
    · exact serialize_length hdata ▸ hpos
    · rename_i builder _ _
      cases hb : builder w.origin.length with
      | error status => rw [hb] at hdata; cases hdata
      | ok header =>
        cases hs : w.serialize with
        | error status => rw [hb, hs] at hdata; cases hdata
        | ok body =>
          rw [hb, hs] at hdata
          cases hdata
          rw [List.length_append, serialize_length hs]
          omega
  · cases h

/-- The queue counts its nodes, and its flag is set as long as it holds one. -/
structure TxFifo.Wf (f : TxFifo) : Prop where
  size : f.size = f.head.length
  overflow : f.txOverflow = true ↔ f.head ≠ []

theorem fifoInit_wf : fifoInit.Wf := ⟨rfl, by simp [fifoInit]⟩

/-- What `fifo_queue` can do: refuse the node and leave the queue alone, or append it. -/
theorem fifoQueue_cases (f : TxFifo) (node : TxNode) (ioModify : Int) :
    ((fifoQueue f node ioModify).1 < 0 ∧ (fifoQueue f node ioModify).2 = (f, false) ∧
        (maximumFifoSize ≤ f.size ∨ f.txOverflow = false ∧ ioModify < 0)) ∨
      (0 ≤ (fifoQueue f node ioModify).1 ∧
        (fifoQueue f node ioModify).2 = (⟨true, f.size + 1, f.head ++ [node]⟩, !f.txOverflow) ∧
        f.size < maximumFifoSize ∧ (f.txOverflow = true ∨ 0 ≤ ioModify)) := by
  rw [fifoQueue]
  split
  · rename_i hfull
    exact .inl ⟨show eBusy < 0 by decide, rfl, .inl hfull⟩
  rename_i hroom
  rw [Nat.not_le] at hroom
  split
  · rename_i hov
    exact .inr ⟨Int.le_refl 0, by rw [hov]; rfl, hroom, .inl hov⟩
  rename_i hov
  rw [Bool.not_eq_true] at hov
  split
  · rename_i hio
    rw [nspSuccess, decide_eq_true_eq] at hio
    exact .inr ⟨hio, by rw [hov]; rfl, hroom, .inr hio⟩
  · rename_i hio
    rw [nspSuccess, decide_eq_true_eq, Int.not_le] at hio
    exact .inl ⟨hio, rfl, .inr ⟨hov, hio⟩⟩

theorem TxFifo.Wf.append {f : TxFifo} (h : f.Wf) (node : TxNode) :
    TxFifo.Wf ⟨true, f.size + 1, f.head ++ [node]⟩ :=
  ⟨by simp [h.size], by simp⟩

/-- What `fifo_pop` does to a queue with a node: the node is gone, and the overflow is canceled with
the last one. -/
theorem fifoPop_cons {f : TxFifo} (h : f.Wf) {n : TxNode} {nodes : List TxNode}
    (hn : f.head = n :: nodes) :
    ∃ f' canceled, fifoPop f = some (f', canceled) ∧ f'.Wf ∧ f'.head = nodes ∧
      (canceled = true ↔ nodes = []) := by
  have hsize : f.size = nodes.length + 1 := by rw [h.size, hn]; rfl
  have hov : f.txOverflow = true := h.overflow.mpr (by simp [hn])
  rw [fifoPop, hn, hsize, hov]
  dsimp only
  cases nodes with
  | nil => exact ⟨_, _, rfl, ⟨rfl, by simp⟩, rfl, by simp⟩
  | cons m nodes => exact ⟨_, _, rfl, ⟨rfl, by simp⟩, rfl, by simp⟩

end Tcp

end LibNax
