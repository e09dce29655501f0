import Mathlib.Data.Fintype.Basic
import LibNax.Tcp.Transmit

/-!
# The order of the bytes on a TCP link

A writer that finds the overflow flag clear sends its packet itself, outside of the lock, and puts
what is left into the queue if the kernel takes no more.  In between its packet is *cut*: a part of
it is with the kernel.  As long as a writer sends only while the queue is empty, and nobody else
sends or queues while a packet is cut, the stream is made of whole packets: what was given to the
kernel, followed by what the queue holds, is what was accepted.  Nothing in the source ensures this,
and two runs below show how it fails.

* `Disciplined` — the steps that leave a cut packet alone.
* `Inv` and `inv_step` — the invariant, and that a disciplined step keeps it.
* `tcpWrite_ordered` — one writer.
* `tcpWrite_whole` — any number of writers.
-/

set_option autoImplicit false

namespace LibNax

namespace Tcp

variable {Tid : Type}

/-- The packet a writer has in its hands. -/
def Writer.node : Writer → Option TxNode
  | .idle => none
  | .test n => some n
  | .txn n => some n
  | .queue n => some n

/-- The packet of a writer, if a part of it is with the kernel. -/
def Writer.cut (w : Writer) : Option TxNode := w.node.filter (0 < ·.offset)

/-- No other writer than `t` has a cut packet. -/
def Alone (s : State Tid) (t : Tid) : Prop := ∀ t', t' ≠ t → (s.writer t').cut = none

/-- The bytes of the calls, in this order. -/
def packets (calls : List Call) : List UInt8 := calls.flatMap Call.packet

/-- What is left to send of the nodes. -/
def pending (nodes : List TxNode) : List UInt8 := nodes.flatMap TxNode.rest

/-- A step that leaves cut packets alone: a writer sends only while the queue is empty and no other
packet is cut, no other packet is queued meanwhile, and a cut packet gets into the queue. -/
def Disciplined (s : State Tid) : Act Tid → Prop
  | .writer t (.send _) => s.fifo.head = [] ∧ Alone s t
  | .writer t (.queue ioModify) => Alone s t ∧ ((s.writer t).cut ≠ none → 0 ≤ ioModify)
  | _ => True

/-! ## The invariant -/

/-- No packet is cut. -/
structure Quiet (s : State Tid) : Prop where
  cut : ∀ t, (s.writer t).cut = none
  sent : s.sent ++ pending s.fifo.head = packets s.accepted

/-- The packet of the writer is cut. -/
structure Cut (s : State Tid) (t : Tid) (n : TxNode) : Prop where
  cut : (s.writer t).cut = some n
  alone : Alone s t
  head : s.fifo.head = []
  sent : s.sent = packets s.accepted ++ n.data.take n.offset

/-- A writer has sent nothing before its test, and something is left to send while it has a
packet. -/
def Writer.Wf : Writer → Prop
  | .idle => True
  | .test n => n.offset = 0 ∧ 0 < n.data.length
  | .txn n => n.offset < n.data.length
  | .queue n => n.offset < n.data.length

/-- The worker sends the first node, and removes it when it is sent. -/
def Worker.Serves (nodes : List TxNode) : Worker → Prop
  | .txn => ∃ n rest, nodes = n :: rest ∧ n.offset < n.data.length
  | .pop => ∃ n rest, nodes = n :: rest ∧ n.data.length ≤ n.offset
  | _ => True

/-- The invariant of the link. -/
structure Inv (s : State Tid) : Prop where
  /-- The queue counts its nodes. -/
  fifo : s.fifo.Wf
  /-- Only the first node has been sent in part. -/
  tail : ∀ n ∈ s.fifo.head.tail, n.offset = 0
  /-- The worker is at the first node. -/
  worker : s.worker.Serves s.fifo.head
  /-- The writers. -/
  writer : ∀ t, (s.writer t).Wf
  /-- Where the bytes are. -/
  stream : Quiet s ∨ ∃ t n, Cut s t n

theorem inv_initial : Inv (initial : State Tid) where
  fifo := fifoInit_wf
  tail := by simp [initial, fifoInit]
  worker := trivial
  writer := fun _ => trivial
  stream := .inl ⟨fun _ => rfl, rfl⟩

theorem Writer.cut_eq_some {w : Writer} {n : TxNode} :
    w.cut = some n ↔ w.node = some n ∧ 0 < n.offset := by
  simp [cut, Option.filter_eq_some_iff]

theorem Writer.cut_eq_none {w : Writer} {n : TxNode} (h : w.node = some n) :
    w.cut = none ↔ n.offset = 0 := by
  simp [cut, h, Option.filter_eq_none_iff]

/-- A writer with a packet that nobody else disturbs: the packet is cut, or nothing of it has been
sent and no packet is cut. -/
theorem Inv.node_cases {s : State Tid} (h : Inv s) {t : Tid} (ha : Alone s t) {n : TxNode}
    (hn : (s.writer t).node = some n) : Cut s t n ∨ (n.offset = 0 ∧ Quiet s) := by
  rcases h.stream with hq | ⟨t', n', hc⟩
  · exact .inr ⟨(Writer.cut_eq_none hn).mp (hq.cut t), hq⟩
  · by_cases ht : t' = t
    · subst ht
      have hn' := (Writer.cut_eq_some.mp hc.cut).1
      rw [hn, Option.some.injEq] at hn'
      exact .inl (hn' ▸ hc)
    · have := ha t' ht
      rw [hc.cut] at this
      cases this

theorem Inv.test_lt {s : State Tid} (h : Inv s) {t : Tid} {n : TxNode} (hn : s.writer t = .test n) :
    n.offset < n.data.length := by
  have hwf := h.writer t
  rw [hn] at hwf
  exact hwf.1.symm ▸ hwf.2

theorem Inv.quiet_of_head {s : State Tid} (h : Inv s) {n : TxNode} {nodes : List TxNode}
    (hn : s.fifo.head = n :: nodes) : Quiet s := by
  rcases h.stream with hq | ⟨t', n', hc⟩
  · exact hq
  · rw [hc.head] at hn
    cases hn

theorem packets_append (calls : List Call) (n : TxNode) :
    packets (calls ++ [n.toCall]) = packets calls ++ n.data := by
  simp [packets, TxNode.toCall]

theorem serves_append {nodes : List TxNode} {w : Worker} (h : w.Serves nodes) (n : TxNode) :
    w.Serves (nodes ++ [n]) := by
  cases w with
  | txn =>
    obtain ⟨m, rest, rfl, hlt⟩ := h
    exact ⟨m, rest ++ [n], rfl, hlt⟩
  | pop =>
    obtain ⟨m, rest, rfl, hle⟩ := h
    exact ⟨m, rest ++ [n], rfl, hle⟩
  | idle => trivial
  | top => trivial
  | cancel => trivial

theorem pending_append (nodes : List TxNode) (n : TxNode) :
    pending (nodes ++ [n]) = pending nodes ++ n.rest := by
  simp [pending]

/-! ## A writer moves -/

section Writers

variable [DecidableEq Tid]

@[simp] theorem setWriter_writer_self (s : State Tid) (t : Tid) (w : Writer) :
    (s.setWriter t w).writer t = w := by
  simp [State.setWriter]

theorem setWriter_writer_ne (s : State Tid) {t t' : Tid} (h : t' ≠ t) (w : Writer) :
    (s.setWriter t w).writer t' = s.writer t' := by
  simp [State.setWriter, h]

theorem cut_setWriter {s : State Tid} {t : Tid} {w : Writer} (hw : w.cut = none)
    (ha : Alone s t) (t' : Tid) : ((s.setWriter t w).writer t').cut = none := by
  by_cases h : t' = t
  · rw [h, setWriter_writer_self]
    exact hw
  · rw [setWriter_writer_ne s h]
    exact ha t' h

theorem alone_setWriter {s : State Tid} {t : Tid} (w : Writer) (ha : Alone s t) :
    Alone (s.setWriter t w) t := by
  intro t' h
  rw [setWriter_writer_ne s h]
  exact ha t' h

theorem wf_setWriter {s : State Tid} (hf : ∀ t, (s.writer t).Wf) (t : Tid) {w : Writer}
    (hw : w.Wf) (t' : Tid) : ((s.setWriter t w).writer t').Wf := by
  by_cases h : t' = t
  · rw [h, setWriter_writer_self]
    exact hw
  · rw [setWriter_writer_ne s h]
    exact hf t'

/-- A writer moves on with the packet as it is: the bytes are where they were. -/
theorem Inv.setWriter {s s' : State Tid} (h : Inv s) {t : Tid} {w : Writer} (hw : w.Wf)
    (hcut : w.cut = (s.writer t).cut) (hwriter : s'.writer = (s.setWriter t w).writer)
    (hfifo : s'.fifo = s.fifo) (hworker : s'.worker = s.worker) (hsent : s'.sent = s.sent)
    (hacc : s'.accepted = s.accepted) : Inv s' := by
  have hcuts : ∀ t', (s'.writer t').cut = (s.writer t').cut := by
    intro t'
    rw [hwriter]
    by_cases ht : t' = t
    · rw [ht, setWriter_writer_self, hcut]
    · rw [setWriter_writer_ne s ht]
  refine ⟨hfifo ▸ h.fifo, hfifo ▸ h.tail, hfifo ▸ hworker ▸ h.worker,
    hwriter ▸ wf_setWriter h.writer t hw, ?_⟩
  rcases h.stream with hq | ⟨t', n, hc⟩
  · exact .inl ⟨fun t' => (hcuts t').trans (hq.cut t'), by rw [hsent, hfifo, hacc]; exact hq.sent⟩
  · exact .inr ⟨t', n, (hcuts t').trans hc.cut, fun t'' hne => (hcuts t'').trans (hc.alone t'' hne),
      hfifo ▸ hc.head, by rw [hsent, hacc]; exact hc.sent⟩

/-- The loop of `tcp_txn` after `ncb_senddata`, in a writer that nobody else disturbs. -/
theorem inv_txnLoop {s : State Tid} {t : Tid} {n : TxNode} (hf : s.fifo.Wf)
    (hw : s.worker.Serves s.fifo.head) (hwriter : ∀ t, (s.writer t).Wf) (ha : Alone s t)
    (hhead : s.fifo.head = []) (hpos : 0 < n.offset)
    (hsent : s.sent = packets s.accepted ++ n.data.take n.offset) : Inv (txnLoop s t n) := by
  have htail : ∀ m ∈ s.fifo.head.tail, m.offset = 0 := by simp [hhead]
  rw [txnLoop]
  split
  · rename_i hlt
    refine ⟨hf, htail, hw, wf_setWriter hwriter t hlt, .inr ⟨t, n, ?_⟩⟩
    refine ⟨?_, alone_setWriter _ ha, hhead, hsent⟩
    rw [setWriter_writer_self]
    exact Writer.cut_eq_some.mpr ⟨rfl, hpos⟩
  · rename_i hge
    refine ⟨hf, htail, hw, wf_setWriter hwriter t trivial, .inl ⟨?_, ?_⟩⟩
    · exact cut_setWriter (s := s.accept n) rfl ha
    · show s.sent ++ pending s.fifo.head = packets (s.accepted ++ [n.toCall])
      rw [hhead, packets_append, hsent, List.take_of_length_le (Nat.le_of_not_lt hge)]
      exact List.append_nil _

theorem inv_send {s : State Tid} {t : Tid} {n : TxNode} {wcb : Nat} (h : Inv s)
    (hn : s.writer t = .txn n) (hs : Sendable n wcb) (hd : Disciplined s (.writer t (.send wcb))) :
    Inv (txnLoop (s.transmit (n.rest.take wcb)) t (n.advance wcb)) := by
  obtain ⟨hhead, ha⟩ := hd
  have hsent : s.sent = packets s.accepted ++ n.data.take n.offset := by
    rcases h.node_cases ha (by rw [hn]; rfl) with hc | ⟨hzero, hq⟩
    · exact hc.sent
    · have hsent := hq.sent
      rw [hhead, pending, List.flatMap_nil, List.append_nil] at hsent
      rw [hsent, hzero, List.take_zero, List.append_nil]
  refine inv_txnLoop h.fifo h.worker h.writer ha hhead (Nat.add_pos_right _ hs.1) ?_
  show s.sent ++ n.rest.take wcb = packets s.accepted ++ n.data.take (n.offset + wcb)
  rw [hsent, List.append_assoc, n.take_append_take_rest]

/-- A packet that is refused is not cut: a writer with a cut packet finds the queue empty, and then
only `io_modify` can refuse the packet. -/
theorem inv_reject {s : State Tid} {t : Tid} {n : TxNode} {ioModify : Int} (h : Inv s)
    (hn : s.writer t = .queue n)
    (hwhy : maximumFifoSize ≤ s.fifo.size ∨ s.fifo.txOverflow = false ∧ ioModify < 0)
    (hd : Disciplined s (.writer t (.queue ioModify))) : Inv (s.setWriter t .idle) := by
  obtain ⟨ha, hio⟩ := hd
  have hq : Quiet s := by
    rcases h.node_cases ha (by rw [hn]; rfl) with hc | ⟨-, hq⟩
    · exfalso
      have hsize : s.fifo.size = 0 := by rw [h.fifo.size, hc.head]; rfl
      have hnonneg := hio (by rw [hc.cut]; exact Option.some_ne_none n)
      rcases hwhy with hfull | ⟨-, hneg⟩
      · rw [hsize] at hfull
        exact absurd hfull (by decide)
      · exact absurd hneg (Int.not_lt.mpr hnonneg)
    · exact hq
  exact ⟨h.fifo, h.tail, h.worker, wf_setWriter h.writer t trivial,
    .inl ⟨cut_setWriter rfl ha, hq.sent⟩⟩

theorem inv_queue {s : State Tid} {t : Tid} {n : TxNode} {ioModify : Int}
    (h : Inv s) (hn : s.writer t = .queue n) (b : Bool)
    (hd : Disciplined s (.writer t (.queue ioModify))) :
    Inv ((((s.setFifo ⟨true, s.fifo.size + 1, s.fifo.head ++ [n]⟩).setEpollout b).accept
      n).setWriter t .idle) := by
  obtain ⟨ha, -⟩ := hd
  have key : (∀ m ∈ (s.fifo.head ++ [n]).tail, m.offset = 0) ∧
      s.sent ++ pending (s.fifo.head ++ [n]) = packets (s.accepted ++ [n.toCall]) := by
    rw [pending_append, packets_append, ← List.append_assoc]
    rcases h.node_cases ha (by rw [hn]; rfl) with hc | ⟨hzero, hq⟩
    · -- the packet is cut, and becomes the first of the queue
      rw [hc.head, hc.sent]
      refine ⟨by simp, ?_⟩
      rw [pending, List.flatMap_nil, List.append_nil, List.append_assoc, n.take_append_rest]
    · -- the packet goes to the end of the queue as it was built
      refine ⟨fun m hm => ?_, by rw [hq.sent, TxNode.rest_of_fresh hzero]⟩
      rcases hhead : s.fifo.head with _ | ⟨first, nodes⟩
      · rw [hhead] at hm
        cases hm
      · rw [hhead, List.cons_append, List.tail_cons, List.mem_append, List.mem_singleton] at hm
        rcases hm with hm | rfl
        · exact h.tail m (by rw [hhead]; exact hm)
        · exact hzero
  exact ⟨h.fifo.append n, key.1, serves_append h.worker n, wf_setWriter h.writer t trivial,
    .inl ⟨cut_setWriter (s := ((s.setFifo _).setEpollout b).accept n) rfl ha, key.2⟩⟩

/-- A disciplined step of a writer. -/
theorem inv_writerStep {l : TxLink} {s s' : State Tid} {t : Tid} {act : WriterAct} (h : Inv s)
    (hd : Disciplined s (.writer t act)) (hs : WriterStep l s t act s') : Inv s' := by
  cases hs with
  | refuse w => exact h
  | build hidle hcall hoff hlen =>
    refine h.setWriter (t := t) (w := .test _) ⟨hoff, hlen⟩ ?_ rfl rfl rfl rfl rfl
    rw [hidle]
    exact (Writer.cut_eq_none rfl).mpr hoff
  | overflow hn hov =>
    exact h.setWriter (w := .queue _) (h.test_lt hn) (by rw [hn]; rfl) rfl rfl rfl rfl rfl
  | direct hn hov =>
    rw [txnLoop, if_pos (h.test_lt hn)]
    exact h.setWriter (w := .txn _) (h.test_lt hn) (by rw [hn]; rfl) rfl rfl rfl rfl rfl
  | send hn hs => exact inv_send h hn hs hd
  | eagain hn =>
    have hwf := h.writer t
    rw [hn] at hwf
    exact h.setWriter (w := .queue _) hwf (by rw [hn]; rfl) rfl rfl rfl rfl rfl
  | reject hn hwhy => exact inv_reject h hn hwhy hd
  | queue hn hroom hio => exact inv_queue h hn _ hd

end Writers

/-! ## The worker moves -/

/-- The worker moves and the queue stays as it is. -/
theorem Inv.of_worker {s s' : State Tid} (h : Inv s) (hw : s'.worker.Serves s.fifo.head)
    (hfifo : s'.fifo = s.fifo) (hwriter : s'.writer = s.writer) (hsent : s'.sent = s.sent)
    (hacc : s'.accepted = s.accepted) : Inv s' := by
  refine ⟨hfifo ▸ h.fifo, hfifo ▸ h.tail, hfifo ▸ hw, hwriter ▸ h.writer, ?_⟩
  rcases h.stream with hq | ⟨t, n, hc⟩
  · exact .inl ⟨hwriter ▸ hq.cut, by rw [hsent, hfifo, hacc]; exact hq.sent⟩
  · refine .inr ⟨t, n, hwriter ▸ hc.cut, ?_, hfifo ▸ hc.head, ?_⟩
    · intro t' hne
      rw [hwriter]
      exact hc.alone t' hne
    · rw [hsent, hacc]
      exact hc.sent

theorem serves_txLoop (n : TxNode) (nodes : List TxNode) : (txLoop n).Serves (n :: nodes) := by
  rw [txLoop]
  split
  · exact ⟨n, nodes, rfl, ‹_›⟩
  · exact ⟨n, nodes, rfl, Nat.le_of_not_lt ‹_›⟩

theorem inv_tx {s : State Tid} {n : TxNode} {nodes : List TxNode} {wcb : Nat} (h : Inv s)
    (hn : s.fifo.head = n :: nodes) :
    Inv (afterTx (s.transmit (n.rest.take wcb)) (n.advance wcb) nodes) := by
  have hq := h.quiet_of_head hn
  refine ⟨⟨?_, ?_⟩, ?_, serves_txLoop _ _, h.writer, .inl ⟨hq.cut, ?_⟩⟩
  · exact h.fifo.size.trans (by rw [hn]; rfl)
  · exact h.fifo.overflow.trans (by rw [hn]; simp [afterTx, State.setFifo, State.setWorker])
  · intro m hm
    exact h.tail m (by rw [hn]; exact hm)
  · show (s.sent ++ n.rest.take wcb) ++ ((n.advance wcb).rest ++ pending nodes) =
      packets s.accepted
    rw [← hq.sent, hn, List.append_assoc, ← List.append_assoc (n.rest.take wcb),
      n.take_rest_append]
    rfl

theorem inv_pop {s : State Tid} {r : TxFifo × Bool} (h : Inv s) (hw : s.worker = .pop)
    (hr : fifoPop s.fifo = some r) : Inv (afterPop s r) := by
  have hserves := h.worker
  rw [hw] at hserves
  obtain ⟨n, nodes, hn, hdone⟩ := hserves
  obtain ⟨f', canceled, hpop, hf', hhead, -⟩ := fifoPop_cons h.fifo hn
  rw [hpop, Option.some.injEq] at hr
  subst hr
  have hq := h.quiet_of_head hn
  have htail : ∀ m ∈ f'.head.tail, m.offset = 0 := by
    intro m hm
    rw [hhead] at hm
    exact h.tail m (by rw [hn]; exact List.mem_of_mem_tail hm)
  have hsent : s.sent ++ pending f'.head = packets s.accepted := by
    rw [← hq.sent, hn, hhead, pending, pending, List.flatMap_cons, TxNode.rest_of_done hdone,
      List.nil_append]
  rw [afterPop]
  split
  · exact ⟨hf', htail, trivial, h.writer, .inl ⟨hq.cut, hsent⟩⟩
  · exact ⟨hf', htail, trivial, h.writer, .inl ⟨hq.cut, hsent⟩⟩

theorem inv_workerStep {s s' : State Tid} {act : WorkerAct} (h : Inv s)
    (hs : WorkerStep s act s') : Inv s' := by
  cases hs with
  | epollout => exact h.of_worker h.worker rfl rfl rfl rfl
  | getTask => exact h.of_worker trivial rfl rfl rfl rfl
  | empty => exact h.of_worker trivial rfl rfl rfl rfl
  | top hw hn => exact h.of_worker (hn ▸ serves_txLoop _ _) rfl rfl rfl rfl
  | send hw hn hs => exact inv_tx h hn
  | eagain => exact h.of_worker trivial rfl rfl rfl rfl
  | pop hw hr => exact inv_pop h hw hr
  | popEmpty => exact h.of_worker trivial rfl rfl rfl rfl
  | cancel => exact h.of_worker trivial rfl rfl rfl rfl

/-- **Disciplined steps keep the stream whole.** -/
theorem inv_step [DecidableEq Tid] {l : TxLink} {s s' : State Tid} {a : Act Tid} (h : Inv s)
    (hd : Disciplined s a) (hs : step l s a = some s') : Inv s' := by
  cases a with
  | writer t act => exact inv_writerStep h hd (writerStep_inv hs)
  | worker act => exact inv_workerStep h (workerStep_inv hs)

/-! ## The numbers of the calls

The calls that were accepted are related pairwise: they are different, and with a single writer they
come in the order in which they were made.  Both are the same argument for a relation `R` that holds
from an earlier call to a later one, and among the open calls of different threads. -/

/-- The number of the call a writer is in. -/
def Writer.call (w : Writer) : Option Nat := w.node.map TxNode.call

/-- The calls that have not ended. -/
def State.opened (s : State Tid) (t : Tid) : Option Nat := (s.writer t).call

/-- The numbers of the accepted calls. -/
def State.ids (s : State Tid) : List Nat := s.accepted.map Call.id

theorem ids_accept (s : State Tid) (n : TxNode) : (s.accept n).ids = s.ids ++ [n.call] := by
  simp [State.ids, State.accept, TxNode.toCall]

/-- How the numbers given out so far are related. -/
structure Numbered (R : Nat → Nat → Prop) (calls : Nat) (opened : Tid → Option Nat)
    (ids : List Nat) : Prop where
  opened_lt : ∀ t i, opened t = some i → i < calls
  ids_lt : ∀ i ∈ ids, i < calls
  ids_opened : ∀ i ∈ ids, ∀ t j, opened t = some j → R i j
  others : ∀ t t' i j, t ≠ t' → opened t = some i → opened t' = some j → R i j
  pairwise : ids.Pairwise R

section Numbers

variable [DecidableEq Tid] {R : Nat → Nat → Prop} {calls : Nat} {opened : Tid → Option Nat}
  {ids : List Nat}

theorem opened_close {t t' : Tid} {i : Nat} (h : Function.update opened t none t' = some i) :
    t' ≠ t ∧ opened t' = some i := by
  by_cases ht : t' = t
  · rw [ht, Function.update_self] at h
    cases h
  · rw [Function.update_of_ne ht] at h
    exact ⟨ht, h⟩

theorem Numbered.close (h : Numbered R calls opened ids) (t : Tid) :
    Numbered R calls (Function.update opened t none) ids where
  opened_lt := fun t' i hi => h.opened_lt t' i (opened_close hi).2
  ids_lt := h.ids_lt
  ids_opened := fun i hi t' j hj => h.ids_opened i hi t' j (opened_close hj).2
  others := fun t' t'' i j hne hi hj =>
    h.others t' t'' i j hne (opened_close hi).2 (opened_close hj).2
  pairwise := h.pairwise

theorem Numbered.accept (h : Numbered R calls opened ids) {t : Tid} {i : Nat}
    (ht : opened t = some i) :
    Numbered R calls (Function.update opened t none) (ids ++ [i]) where
  opened_lt := (h.close t).opened_lt
  ids_lt := fun j hj => by
    rcases List.mem_append.mp hj with hj | hj
    · exact h.ids_lt j hj
    · exact List.mem_singleton.mp hj ▸ h.opened_lt t i ht
  ids_opened := fun j hj t' k hk => by
    obtain ⟨hne, hk⟩ := opened_close hk
    rcases List.mem_append.mp hj with hj | hj
    · exact h.ids_opened j hj t' k hk
    · exact List.mem_singleton.mp hj ▸ h.others t t' i k hne.symm ht hk
  others := (h.close t).others
  pairwise := by
    refine List.pairwise_append.mpr ⟨h.pairwise, List.pairwise_singleton R i, ?_⟩
    intro j hj k hk
    exact List.mem_singleton.mp hk ▸ h.ids_opened j hj t i ht

theorem Numbered.open (hlt : ∀ i j, i < j → R i j)
    (hgt : ∀ t t' : Tid, t ≠ t' → ∀ i j, j < i → R i j)
    (h : Numbered R calls opened ids) (t : Tid) :
    Numbered R (calls + 1) (Function.update opened t (some calls)) ids := by
  have hcases : ∀ t' i, Function.update opened t (some calls) t' = some i →
      (t' = t ∧ i = calls) ∨ (t' ≠ t ∧ opened t' = some i) := by
    intro t' i hi
    by_cases ht : t' = t
    · rw [ht, Function.update_self, Option.some.injEq] at hi
      exact .inl ⟨ht, hi.symm⟩
    · rw [Function.update_of_ne ht] at hi
      exact .inr ⟨ht, hi⟩
  refine ⟨fun t' i hi => ?_, fun i hi => Nat.lt_succ_of_lt (h.ids_lt i hi),
    fun i hi t' j hj => ?_, fun t' t'' i j hne hi hj => ?_, h.pairwise⟩
  · rcases hcases t' i hi with ⟨-, rfl⟩ | ⟨-, hi⟩
    · exact Nat.lt_succ_self _
    · exact Nat.lt_succ_of_lt (h.opened_lt t' i hi)
  · rcases hcases t' j hj with ⟨-, rfl⟩ | ⟨-, hj⟩
    · exact hlt i _ (h.ids_lt i hi)
    · exact h.ids_opened i hi t' j hj
  · rcases hcases t' i hi with ⟨ht', rfl⟩ | ⟨ht', hi⟩
    · rcases hcases t'' j hj with ⟨ht'', -⟩ | ⟨ht'', hj⟩
      · exact absurd (ht'.trans ht''.symm) hne
      · exact hgt t' t'' hne _ j (h.opened_lt t'' j hj)
    · rcases hcases t'' j hj with ⟨ht'', hj⟩ | ⟨ht'', hj⟩
      · exact hj ▸ hlt i calls (h.opened_lt t' i hi)
      · exact h.others t' t'' i j hne hi hj

theorem opened_setWriter (s : State Tid) (t : Tid) (w : Writer) :
    (s.setWriter t w).opened = Function.update s.opened t w.call := by
  funext t'
  by_cases h : t' = t
  · rw [h, Function.update_self]
    simp [State.opened, State.setWriter]
  · rw [Function.update_of_ne h]
    simp [State.opened, State.setWriter, h]

theorem opened_setWriter_of_call {s : State Tid} {t : Tid} {w : Writer}
    (h : (s.writer t).call = w.call) : (s.setWriter t w).opened = s.opened := by
  rw [opened_setWriter, ← h]
  exact Function.update_eq_self t s.opened

end Numbers

/-- The numbers of a state are related. -/
def State.Numbered (R : Nat → Nat → Prop) (s : State Tid) : Prop :=
  Tcp.Numbered R s.calls s.opened s.ids

theorem numbered_initial (R : Nat → Nat → Prop) : (initial : State Tid).Numbered R where
  opened_lt := fun _ _ h => by cases h
  ids_lt := fun _ h => by cases h
  ids_opened := fun _ h => by cases h
  others := fun _ _ _ _ _ h => by cases h
  pairwise := List.Pairwise.nil

section

variable [DecidableEq Tid] {R : Nat → Nat → Prop}

theorem numbered_txnLoop {s : State Tid} {t : Tid} {n : TxNode} (h : s.Numbered R)
    (hn : (s.writer t).call = some n.call) : (txnLoop s t n).Numbered R := by
  rw [txnLoop]
  split
  · rw [State.Numbered, opened_setWriter_of_call (w := .txn n) hn]
    exact h
  · rw [State.Numbered, opened_setWriter]
    show Tcp.Numbered R s.calls (Function.update s.opened t none) (s.accept n).ids
    rw [ids_accept]
    exact h.accept hn

theorem numbered_step {l : TxLink} (hlt : ∀ i j, i < j → R i j)
    (hgt : ∀ t t' : Tid, t ≠ t' → ∀ i j, j < i → R i j) {s s' : State Tid} {a : Act Tid}
    (h : s.Numbered R) (hs : step l s a = some s') : s'.Numbered R := by
  cases a with
  | writer t act =>
    cases writerStep_inv hs with
    | refuse w => exact h
    | build hidle hcall hoff hlen =>
      rw [State.Numbered, opened_setWriter, Writer.call, Writer.node, Option.map_some, hcall]
      exact Tcp.Numbered.open hlt hgt h t
    | overflow hn hov =>
      rw [State.Numbered, opened_setWriter_of_call (by rw [hn]; rfl)]
      exact h
    | direct hn hov => exact numbered_txnLoop h (by rw [hn]; rfl)
    | @send n wcb hn hs => exact numbered_txnLoop h (by rw [State.transmit, hn]; rfl)
    | eagain hn =>
      rw [State.Numbered, opened_setWriter_of_call (by rw [hn]; rfl)]
      exact h
    | reject hn hwhy =>
      rw [State.Numbered, opened_setWriter]
      exact h.close t
    | @queue n ioModify hn hroom hio =>
      rw [State.Numbered, opened_setWriter]
      show Tcp.Numbered R s.calls (Function.update s.opened t none) (s.accept n).ids
      rw [ids_accept]
      exact h.accept (by rw [State.opened, hn]; rfl)
  | worker act =>
    cases workerStep_inv hs with
    | @pop r hw hr =>
      rw [afterPop]
      split
      · exact h
      · exact h
    | _ => exact h

end

/-! ## One writer -/

/-- The packet that is being sent, of which a part is with the kernel, or nothing. -/
def Writer.inFlight (w : Writer) : List UInt8 := (w.cut.map TxNode.data).getD []

/-- The bytes given to the kernel are a prefix of the accepted packets, in the order of the calls,
followed by the packet that is being sent. -/
def Ordered (s : State Unit) : Prop :=
  s.sent <+: packets s.accepted ++ (s.writer ()).inFlight ∧ s.ids.Pairwise (· < ·)

/-- The writer does not overtake its own packets: on a link without `LINKATTR_NONBLOCK`, where the
flag is not looked at, it sends only while the queue is empty; and `epoll_ctl` does not fail for a
packet that is cut. -/
def NoOvertaking (l : TxLink) (s : State Unit) : Act Unit → Prop
  | .writer _ (.send _) => l.nonblock = true ∨ s.fifo.head = []
  | .writer t (.queue ioModify) => (s.writer t).cut ≠ none → 0 ≤ ioModify
  | _ => True

instance (l : TxLink) (s : State Unit) (a : Act Unit) : Decidable (NoOvertaking l s a) :=
  match a with
  | .writer _ (.send _) => inferInstanceAs (Decidable (_ ∨ _))
  | .writer t (.queue ioModify) =>
      inferInstanceAs (Decidable ((s.writer t).cut ≠ none → 0 ≤ ioModify))
  | .writer _ (.write _) => .isTrue trivial
  | .writer _ .test => .isTrue trivial
  | .writer _ .eagain => .isTrue trivial
  | .worker _ => .isTrue trivial

/-- On a link with `LINKATTR_NONBLOCK` a single writer that sends finds the queue empty. -/
def SendsOnEmpty (l : TxLink) (s : State Unit) : Prop :=
  l.nonblock = true → ∀ n, s.writer () = .txn n → s.fifo.head = []

theorem TxFifo.Wf.head_of_overflow {f : TxFifo} (h : f.Wf) (hov : f.txOverflow = false) :
    f.head = [] := by
  by_contra hne
  rw [h.overflow.mpr hne] at hov
  cases hov

theorem sendsOnEmpty_step {l : TxLink} {s s' : State Unit} {a : Act Unit} (h : Inv s)
    (he : SendsOnEmpty l s) (hs : step l s a = some s') : SendsOnEmpty l s' := by
  intro hl n' hn'
  rcases a with ⟨⟨⟩, act⟩ | act
  · cases writerStep_inv hs with
    | refuse w => exact he hl n' hn'
    | direct hn hov =>
      rw [fifoTxOverflow, if_pos hl] at hov
      rw [txnLoop, if_pos (h.test_lt hn)]
      exact h.fifo.head_of_overflow hov
    | send hn _ =>
      have hhead := he hl _ hn
      rw [txnLoop]
      split
      · exact hhead
      · exact hhead
    | build => rw [setWriter_writer_self] at hn'; cases hn'
    | overflow => rw [setWriter_writer_self] at hn'; cases hn'
    | eagain => rw [setWriter_writer_self] at hn'; cases hn'
    | reject => rw [setWriter_writer_self] at hn'; cases hn'
    | queue => rw [setWriter_writer_self] at hn'; cases hn'
  · cases workerStep_inv hs with
    | send _ hhead _ =>
      rw [he hl n' hn'] at hhead
      cases hhead
    | @pop r _ hr =>
      have hhead : s.fifo.head = [] := by
        refine he hl n' ?_
        rw [afterPop] at hn'
        split at hn'
        · exact hn'
        · exact hn'
      rw [fifoPop, hhead] at hr
      cases hr
    | _ => exact he hl n' hn'

theorem NoOvertaking.disciplined {l : TxLink} {s s' : State Unit} {a : Act Unit}
    (he : SendsOnEmpty l s) (hs : step l s a = some s') (ha : NoOvertaking l s a) :
    Disciplined s a := by
  have halone : ∀ t, Alone s t := fun t t' hne => absurd rfl hne
  rcases a with ⟨t, act⟩ | act
  · cases act with
    | send wcb =>
      have hs : writerStep l s t (.send wcb) = some s' := hs
      cases writerStep_inv hs with
      | send hn _ => exact ⟨ha.elim (fun hl => he hl _ hn) id, halone t⟩
    | queue ioModify => exact ⟨halone t, ha⟩
    | write w => trivial
    | test => trivial
    | eagain => trivial
  · trivial

theorem Inv.prefix_packets {s : State Unit} (h : Inv s) :
    s.sent <+: packets s.accepted ++ (s.writer ()).inFlight := by
  rcases h.stream with hq | ⟨t, n, hc⟩
  · rw [← hq.sent, List.append_assoc]
    exact List.prefix_append _ _
  · rw [hc.sent, List.prefix_append_right_inj, Writer.inFlight,
      show (s.writer ()).cut = some n from hc.cut]
    exact List.take_prefix _ _

/-- **The order of one writer.**  In every run of one thread that calls `tcp_write` and the worker,
for every outcome of `ncb_senddata`, the bytes given to the kernel are a prefix of the accepted
packets in the order of the calls, followed by the packet that is being sent, as long as the writer
does not overtake its own packets. -/
theorem tcpWrite_ordered {l : TxLink} {acts : List (Act Unit)} {s : State Unit}
    (hrun : Lib.Run (fun s a s' => NoOvertaking l s a ∧ step l s a = some s') initial acts s) :
    Ordered s := by
  have h : Inv s ∧ SendsOnEmpty l s ∧ s.Numbered (· < ·) := by
    refine hrun.invariant (fun s a s' (h : Inv s ∧ SendsOnEmpty l s ∧ s.Numbered (· < ·)) hs => ?_)
      ⟨inv_initial, (fun _ _ h => by cases h), numbered_initial _⟩
    obtain ⟨hinv, he, hnum⟩ := h
    exact ⟨inv_step hinv (hs.1.disciplined he hs.2) hs.2, sendsOnEmpty_step hinv he hs.2,
      numbered_step (fun _ _ h => h) (fun t t' hne => absurd rfl hne) hnum hs.2⟩
  exact ⟨h.1.prefix_packets, h.2.2.pairwise⟩

/-- A link that `_tcp_syn_try` accepted: the attribute of the link lacks `LINKATTR_NONBLOCK` while
its socket does not block.  There is no template. -/
def acceptedLink : TxLink := ⟨⟨0, none⟩, none, false, false⟩

/-- A link whose attribute has `LINKATTR_NONBLOCK`. -/
def nonblockLink : TxLink := ⟨⟨0, none⟩, none, false, true⟩

/-- A call of `tcp_write` without a serializer. -/
def plainWrite (origin : List UInt8) : TcpWrite := ⟨origin, none, true, true⟩

/-- A packet is sent in part and queued, and the next waits behind it until the worker has sent
both. -/
theorem tcpWrite_ordered_example : ∃ s : State Unit, Lib.Run
    (fun s a s' => NoOvertaking nonblockLink s a ∧ step nonblockLink s a = some s') initial
    [.writer () (.write (plainWrite [1, 2])), .writer () .test, .writer () (.send 1),
      .writer () .eagain, .writer () (.queue 0), .writer () (.write (plainWrite [3])),
      .writer () .test, .writer () (.queue 0), .worker .epollout, .worker .getTask, .worker .top,
      .worker (.send 1), .worker .pop, .worker .getTask, .worker .top, .worker (.send 1)] s ∧
    s.sent = [1, 2, 3] ∧ Ordered s := by
  obtain ⟨s, hexec, hsent⟩ : ∃ s : State Unit, Lib.exec
      (fun s a => if NoOvertaking nonblockLink s a then step nonblockLink s a else none) initial
      [.writer () (.write (plainWrite [1, 2])), .writer () .test, .writer () (.send 1),
        .writer () .eagain, .writer () (.queue 0), .writer () (.write (plainWrite [3])),
        .writer () .test, .writer () (.queue 0), .worker .epollout, .worker .getTask, .worker .top,
        .worker (.send 1), .worker .pop, .worker .getTask, .worker .top, .worker (.send 1)] =
        some s ∧ s.sent = [1, 2, 3] :=
    ⟨_, rfl, rfl⟩
  have hrun := Lib.Run.of_exec (fun s a s' h => show NoOvertaking nonblockLink s a ∧
    step nonblockLink s a = some s' from Option.ite_none_right_eq_some.mp h) hexec
  exact ⟨s, hrun, hsent, tcpWrite_ordered hrun⟩

/-- On an accepted link the second packet overtakes the rest of the first. -/
theorem tcpWrite_overtakes : ∃ s : State Unit, Lib.Run
    (fun s a s' => step acceptedLink s a = some s') initial
    [.writer () (.write (plainWrite [1, 2])), .writer () .test, .writer () (.send 1),
      .writer () .eagain, .writer () (.queue 0), .writer () (.write (plainWrite [3])),
      .writer () .test, .writer () (.send 1)] s ∧ ¬Ordered s := by
  obtain ⟨s, hexec, hsent, hacc, hw⟩ : ∃ s : State Unit, Lib.exec (step acceptedLink) initial
      [.writer () (.write (plainWrite [1, 2])), .writer () .test, .writer () (.send 1),
        .writer () .eagain, .writer () (.queue 0), .writer () (.write (plainWrite [3])),
        .writer () .test, .writer () (.send 1)] = some s ∧
      s.sent = [1, 3] ∧ s.accepted = [⟨0, [1, 2]⟩, ⟨1, [3]⟩] ∧ s.writer () = .idle :=
    ⟨_, rfl, rfl, rfl, rfl⟩
  refine ⟨s, Lib.Run.of_exec (fun _ _ _ h => h) hexec, fun h => ?_⟩
  have := h.1
  rw [hsent, hacc, hw] at this
  revert this
  decide

/-! ## Many writers -/

/-- The bytes given to the kernel are a prefix of whole packets, each of one call that was accepted
or is sending. -/
def Whole (s : State Tid) : Prop :=
  ∃ calls : List Call, (calls.map Call.id).Nodup ∧
    (∀ c ∈ calls, c ∈ s.accepted ∨ ∃ t, ∃ n ∈ (s.writer t).cut, n.toCall = c) ∧
    s.sent <+: packets calls

instance [Fintype Tid] [DecidableEq Tid] (s : State Tid) (t : Tid) : Decidable (Alone s t) :=
  inferInstanceAs (Decidable (∀ _, _ → _))

instance [Fintype Tid] [DecidableEq Tid] (s : State Tid) (a : Act Tid) :
    Decidable (Disciplined s a) :=
  match a with
  | .writer t (.send _) => inferInstanceAs (Decidable (s.fifo.head = [] ∧ Alone s t))
  | .writer t (.queue ioModify) =>
    inferInstanceAs (Decidable (Alone s t ∧ ((s.writer t).cut ≠ none → 0 ≤ ioModify)))
  | .writer _ (.write _) => .isTrue trivial
  | .writer _ .test => .isTrue trivial
  | .writer _ .eagain => .isTrue trivial
  | .worker _ => .isTrue trivial

theorem whole_of_inv [DecidableEq Tid] {s : State Tid} (h : Inv s) (hn : s.Numbered (· ≠ ·)) :
    Whole s := by
  rcases h.stream with hq | ⟨t, n, hc⟩
  · exact ⟨s.accepted, hn.pairwise, fun c hc => .inl hc, hq.sent ▸ List.prefix_append _ _⟩
  · have hopen : s.opened t = some n.call := by
      rw [State.opened, Writer.call, (Writer.cut_eq_some.mp hc.cut).1, Option.map_some]
    refine ⟨s.accepted ++ [n.toCall], ?_, fun c hmem => ?_, ?_⟩
    · rw [List.map_append]
      exact (hn.accept hopen).pairwise
    · rcases List.mem_append.mp hmem with hmem | hmem
      · exact .inl hmem
      · exact .inr ⟨t, n, hc.cut, (List.mem_singleton.mp hmem).symm⟩
    · rw [packets_append, hc.sent, List.prefix_append_right_inj]
      exact List.take_prefix _ _

/-- **Packets stay whole.**  In every run of any number of threads that call `tcp_write` on a link,
together with the worker, the bytes given to the kernel are a prefix of whole packets, each of one
call, as long as cut packets are left alone. -/
theorem tcpWrite_whole [DecidableEq Tid] {l : TxLink} {acts : List (Act Tid)} {s : State Tid}
    (hrun : Lib.Run (fun s a s' => Disciplined s a ∧ step l s a = some s') initial acts s) :
    Whole s := by
  have h : Inv s ∧ s.Numbered (· ≠ ·) := by
    refine hrun.invariant (fun s a s' (h : Inv s ∧ s.Numbered (· ≠ ·)) hs => ?_)
      ⟨inv_initial, numbered_initial _⟩
    exact ⟨inv_step h.1 hs.1 hs.2,
      numbered_step (fun _ _ h => Nat.ne_of_lt h) (fun _ _ _ _ _ h => Nat.ne_of_gt h) h.2 hs.2⟩
  exact whole_of_inv h.1 h.2

/-- Two writers on one link: the packet of the first is cut and queued, the second finds the flag
set and queues its packet, and the worker sends the rest. -/
theorem tcpWrite_whole_example : ∃ s : State Bool, Lib.Run
    (fun s a s' => Disciplined s a ∧ step nonblockLink s a = some s') initial
    [.writer false (.write (plainWrite [1, 2])), .writer true (.write (plainWrite [3])),
      .writer false .test, .writer false (.send 1), .writer false .eagain,
      .writer false (.queue 0), .writer true .test, .writer true (.queue 0), .worker .epollout,
      .worker .getTask, .worker .top, .worker (.send 1), .worker .pop, .worker .getTask,
      .worker .top, .worker (.send 1)] s ∧
    s.sent = [1, 2, 3] ∧ Whole s := by
  obtain ⟨s, hexec, hsent⟩ : ∃ s : State Bool, Lib.exec
      (fun s a => if Disciplined s a then step nonblockLink s a else none) initial
      [.writer false (.write (plainWrite [1, 2])), .writer true (.write (plainWrite [3])),
        .writer false .test, .writer false (.send 1), .writer false .eagain,
        .writer false (.queue 0), .writer true .test, .writer true (.queue 0), .worker .epollout,
        .worker .getTask, .worker .top, .worker (.send 1), .worker .pop, .worker .getTask,
        .worker .top, .worker (.send 1)] = some s ∧ s.sent = [1, 2, 3] :=
    ⟨_, rfl, rfl⟩
  have hrun := Lib.Run.of_exec (fun s a s' h => show Disciplined s a ∧
    step nonblockLink s a = some s' from Option.ite_none_right_eq_some.mp h) hexec
  exact ⟨s, hrun, hsent, tcpWrite_whole hrun⟩

/-- Both writers find the flag clear, and the second sends into the packet of the first. -/
theorem tcpWrite_interleaves : ∃ s : State Bool, Lib.Run
    (fun s a s' => step nonblockLink s a = some s') initial
    [.writer false (.write (plainWrite [1, 2])), .writer true (.write (plainWrite [3])),
      .writer false .test, .writer true .test, .writer false (.send 1), .writer true (.send 1)] s ∧
    ¬Whole s := by
  obtain ⟨s, hexec, hsent, hacc, hfalse, htrue⟩ : ∃ s : State Bool, Lib.exec (step nonblockLink)
      initial
      [.writer false (.write (plainWrite [1, 2])), .writer true (.write (plainWrite [3])),
        .writer false .test, .writer true .test, .writer false (.send 1), .writer true (.send 1)] =
        some s ∧ s.sent = [1, 3] ∧ s.accepted = [⟨1, [3]⟩] ∧
      s.writer false = .txn ⟨0, [1, 2], 1⟩ ∧ s.writer true = .idle :=
    ⟨_, rfl, rfl, rfl, rfl, rfl⟩
  refine ⟨s, Lib.Run.of_exec (fun _ _ _ h => h) hexec, fun ⟨calls, hnodup, hmem, hpre⟩ => ?_⟩
  have hcalls : ∀ c ∈ calls, c = ⟨1, [3]⟩ ∨ c = ⟨0, [1, 2]⟩ := by
    intro c hc
    rcases hmem c hc with hc | ⟨t, n, hn, rfl⟩
    · rw [hacc] at hc
      exact .inl (List.mem_singleton.mp hc)
    · cases t with
      | false =>
        rw [hfalse] at hn
        cases hn
        exact .inr rfl
      | true =>
        rw [htrue] at hn
        cases hn
  rw [hsent] at hpre
  cases calls with
  | nil => exact absurd hpre (by decide)
  | cons c calls =>
    rcases hcalls c List.mem_cons_self with rfl | rfl
    · simp [packets] at hpre
    · simp [packets] at hpre

end Tcp

end LibNax
