import Mathlib.Data.List.Flatten
import Mathlib.Data.List.Nodup
import LibNax.Lib.Run
import LibNax.Tcp.Fifo

/-!
# The transmitting side of a TCP link

Threads call `tcp_write` on one link while the worker of the pool drains its queue.  The order in
which the bytes reach the kernel is decided by the steps that exclude each other: the test of the
overflow flag, `fifo_queue`, `fifo_top` and `fifo_pop`, which take the lock of the queue, and every
single call of `ncb_senddata`.  A writer that finds the flag clear sends outside of the lock.

* `State`, `step` — the threads, the worker, and one step of one of them.
* `WriterStep`, `WorkerStep` — the same steps, one by one, with what is known where they are taken.

A link is established and its calls of `ncb_senddata` take a positive number of bytes or fail with
`EAGAIN`.
-/

set_option autoImplicit false

namespace LibNax

namespace Tcp

/-! ## The system -/

/-- Where a call of `tcp_write` stands. -/
inductive Writer where
  /-- No call. -/
  | idle
  /-- Before `fifo_tx_overflow`. -/
  | test (node : TxNode)
  /-- In the loop of `tcp_txn`: the writer sends its packet itself. -/
  | txn (node : TxNode)
  /-- Before `fifo_queue`. -/
  | queue (node : TxNode)

/-- Where the worker stands in `_wp_exec` for the link.  The node it sends stays the first of the
queue until the worker itself removes it. -/
inductive Worker where
  /-- It does not serve the link. -/
  | idle
  /-- It has a task of the link and is before `fifo_top`. -/
  | top
  /-- In the loop of `tcp_txn` for the first node. -/
  | txn
  /-- Before `fifo_pop`. -/
  | pop
  /-- In `fifo_pop` before `io_modify(ncb, EPOLLIN)`. -/
  | cancel

/-- A call of `tcp_write` with its packet. -/
structure Call where
  /-- The number of the call. -/
  id : Nat
  /-- Its packet. -/
  packet : List UInt8
deriving DecidableEq

/-- The call a node belongs to. -/
def TxNode.toCall (n : TxNode) : Call := ⟨n.call, n.data⟩

variable {Tid : Type} [DecidableEq Tid]

/-- A link with its writers and the worker. -/
structure State (Tid : Type) where
  /-- The queue. -/
  fifo : TxFifo
  /-- Whether the last `io_modify` included `EPOLLOUT`. -/
  epollout : Bool
  /-- The tasks of the link that wait for the worker. -/
  tasks : Nat
  /-- The bytes given to the kernel. -/
  sent : List UInt8
  /-- The writers. -/
  writer : Tid → Writer
  /-- The worker. -/
  worker : Worker
  /-- How many calls have built a packet. -/
  calls : Nat
  /-- The calls that succeeded, in this order. -/
  accepted : List Call

/-- The link before the first call. -/
def initial : State Tid := ⟨fifoInit, false, 0, [], fun _ => .idle, .idle, 0, []⟩

/-- What a writer does next, with the outcome of the calls it makes. -/
inductive WriterAct where
  /-- `tcp_write` is called. -/
  | write (w : TcpWrite)
  /-- `fifo_tx_overflow`. -/
  | test
  /-- `ncb_senddata` takes so many bytes. -/
  | send (wcb : Nat)
  /-- `ncb_senddata` fails with `EAGAIN`. -/
  | eagain
  /-- `fifo_queue`, where `io_modify` returns the status if it is called. -/
  | queue (ioModify : Int)

/-- What the worker does next. -/
inductive WorkerAct where
  /-- The event `EPOLLOUT` queues a task. -/
  | epollout
  /-- `_wp_get_task`. -/
  | getTask
  /-- `fifo_top`. -/
  | top
  /-- `ncb_senddata` takes so many bytes. -/
  | send (wcb : Nat)
  /-- `ncb_senddata` fails with `EAGAIN`. -/
  | eagain
  /-- `fifo_pop`. -/
  | pop
  /-- `io_modify` returns the status. -/
  | cancel (ioModify : Int)

/-- One step of a writer or of the worker. -/
inductive Act (Tid : Type) where
  | writer (t : Tid) (act : WriterAct)
  | worker (act : WorkerAct)

namespace State

def setWriter (s : State Tid) (t : Tid) (w : Writer) : State Tid :=
  { s with writer := Function.update s.writer t w }

def setWorker (s : State Tid) (w : Worker) : State Tid := { s with worker := w }

def setFifo (s : State Tid) (f : TxFifo) : State Tid := { s with fifo := f }

def accept (s : State Tid) (n : TxNode) : State Tid :=
  { s with accepted := s.accepted ++ [n.toCall] }

def transmit (s : State Tid) (bytes : List UInt8) : State Tid := { s with sent := s.sent ++ bytes }

def addTask (s : State Tid) : State Tid := { s with tasks := s.tasks + 1 }

def setEpollout (s : State Tid) (b : Bool) : State Tid := { s with epollout := b }

def newCall (s : State Tid) : State Tid := { s with calls := s.calls + 1 }

end State

/-- `ncb_senddata` can take this many bytes of the node. -/
def Sendable (n : TxNode) (wcb : Nat) : Prop := 0 < wcb ∧ wcb ≤ n.rest.length

instance (n : TxNode) (wcb : Nat) : Decidable (Sendable n wcb) :=
  inferInstanceAs (Decidable (_ ∧ _))

/-- The head of the loop in `tcp_txn`, called by a writer: once more round, or out of the call with
success. -/
def txnLoop (s : State Tid) (t : Tid) (n : TxNode) : State Tid :=
  if n.offset < n.data.length then s.setWriter t (.txn n) else (s.accept n).setWriter t .idle

/-- A writer after `fifo_queue`: the call returns the status. -/
def afterQueue (s : State Tid) (t : Tid) (n : TxNode) (r : Int × TxFifo × Bool) : State Tid :=
  if nspSuccess r.1 then
    ((((s.setFifo r.2.1).setEpollout (s.epollout || r.2.2)).accept n).setWriter t .idle)
  else (s.setFifo r.2.1).setWriter t .idle

/-- One step of a writer, if it stands where the step is taken. -/
def writerStep (l : TxLink) (s : State Tid) (t : Tid) : WriterAct → Option (State Tid)
  | .write w =>
    match s.writer t with
    | .idle =>
      match tcpWriteNode l w s.calls with
      | .error _ => some s
      | .ok node => some (s.newCall.setWriter t (.test node))
    | _ => none
  | .test =>
    match s.writer t with
    | .test n =>
      if fifoTxOverflow l s.fifo then some (s.setWriter t (.queue n))
      else some (txnLoop s t n)
    | _ => none
  | .send wcb =>
    match s.writer t with
    | .txn n =>
      if Sendable n wcb then some (txnLoop (s.transmit (n.rest.take wcb)) t (n.advance wcb))
      else none
    | _ => none
  | .eagain =>
    match s.writer t with
    | .txn n => some (s.setWriter t (.queue n))
    | _ => none
  | .queue ioModify =>
    match s.writer t with
    | .queue n => some (afterQueue s t n (fifoQueue s.fifo n ioModify))
    | _ => none

/-- The head of the loop in `tcp_txn`, called by the worker. -/
def txLoop (n : TxNode) : Worker := if n.offset < n.data.length then .txn else .pop

/-- The worker after it has sent some of the first node. -/
def afterTx (s : State Tid) (n : TxNode) (nodes : List TxNode) : State Tid :=
  (s.setFifo { s.fifo with head := n :: nodes }).setWorker (txLoop n)

/-- The worker after `fifo_pop` has released the lock: it still has to cancel the event, or queues
its task again. -/
def afterPop (s : State Tid) (r : TxFifo × Bool) : State Tid :=
  if r.2 then (s.setFifo r.1).setWorker .cancel else (s.setFifo r.1).addTask.setWorker .idle

/-- One step of the worker, if it stands where the step is taken. -/
def workerStep (s : State Tid) : WorkerAct → Option (State Tid)
  | .epollout => some s.addTask
  | .getTask =>
    match s.worker, s.tasks with
    | .idle, tasks + 1 => some ({ s with tasks := tasks }.setWorker .top)
    | _, _ => none
  | .top =>
    match s.worker with
    | .top =>
      match fifoTop s.fifo with
      | none => some (s.setWorker .idle)
      | some n => some (s.setWorker (txLoop n))
    | _ => none
  | .send wcb =>
    match s.worker, s.fifo.head with
    | .txn, n :: nodes =>
      if Sendable n wcb then some (afterTx (s.transmit (n.rest.take wcb)) (n.advance wcb) nodes)
      else none
    | _, _ => none
  | .eagain =>
    match s.worker with
    | .txn => some (s.setWorker .idle)
    | _ => none
  | .pop =>
    match s.worker with
    | .pop =>
      match fifoPop s.fifo with
      | none => some (s.setWorker .idle)
      | some r => some (afterPop s r)
    | _ => none
  | .cancel ioModify =>
    match s.worker with
    | .cancel =>
      some (((s.setEpollout (s.epollout && !nspSuccess ioModify)).addTask).setWorker .idle)
    | _ => none

/-- One step of the system. -/
def step (l : TxLink) (s : State Tid) : Act Tid → Option (State Tid)
  | .writer t act => writerStep l s t act
  | .worker act => workerStep s act

/-! ## What one step does -/

/-- The steps of a writer, one by one. -/
inductive WriterStep (l : TxLink) (s : State Tid) (t : Tid) : WriterAct → State Tid → Prop where
  | refuse (w : TcpWrite) : WriterStep l s t (.write w) s
  | build {w : TcpWrite} {n : TxNode} : s.writer t = .idle → n.call = s.calls → n.offset = 0 →
      0 < n.data.length → WriterStep l s t (.write w) (s.newCall.setWriter t (.test n))
  | overflow {n : TxNode} : s.writer t = .test n → fifoTxOverflow l s.fifo = true →
      WriterStep l s t .test (s.setWriter t (.queue n))
  | direct {n : TxNode} : s.writer t = .test n → fifoTxOverflow l s.fifo = false →
      WriterStep l s t .test (txnLoop s t n)
  | send {n : TxNode} {wcb : Nat} : s.writer t = .txn n → Sendable n wcb →
      WriterStep l s t (.send wcb) (txnLoop (s.transmit (n.rest.take wcb)) t (n.advance wcb))
  | eagain {n : TxNode} : s.writer t = .txn n →
      WriterStep l s t .eagain (s.setWriter t (.queue n))
  | reject {n : TxNode} {ioModify : Int} : s.writer t = .queue n →
      maximumFifoSize ≤ s.fifo.size ∨ s.fifo.txOverflow = false ∧ ioModify < 0 →
      WriterStep l s t (.queue ioModify) (s.setWriter t .idle)
  | queue {n : TxNode} {ioModify : Int} : s.writer t = .queue n →
      s.fifo.size < maximumFifoSize → s.fifo.txOverflow = true ∨ 0 ≤ ioModify →
      WriterStep l s t (.queue ioModify)
        ((((s.setFifo ⟨true, s.fifo.size + 1, s.fifo.head ++ [n]⟩).setEpollout
          (s.epollout || !s.fifo.txOverflow)).accept n).setWriter t .idle)

theorem writerStep_inv {l : TxLink} {s s' : State Tid} {t : Tid} {act : WriterAct}
    (h : writerStep l s t act = some s') : WriterStep l s t act s' := by
  cases act with
  | write w =>
    rw [writerStep] at h
    split at h
    · rename_i hidle
      split at h
      · cases h
        exact .refuse w
      · rename_i n hn
        cases h
        obtain ⟨hcall, hoff, hlen⟩ := tcpWriteNode_ok hn
        exact .build hidle hcall hoff hlen
    · cases h
  | test =>
    rw [writerStep] at h
    split at h
    · rename_i n hn
      split at h
      · rename_i hov
        cases h
        exact .overflow hn hov
      · rename_i hov
        cases h
        exact .direct hn (Bool.not_eq_true _ ▸ hov)
    · cases h
  | send wcb =>
    rw [writerStep] at h
    split at h
    · rename_i n hn
      split at h
      · rename_i hs
        cases h
        exact .send hn hs
      · cases h
    · cases h
  | eagain =>
    rw [writerStep] at h
    split at h
    · rename_i n hn
      cases h
      exact .eagain hn
    · cases h
  | queue ioModify =>
    rw [writerStep] at h
    split at h
    · rename_i n hn
      cases h
      rcases fifoQueue_cases s.fifo n ioModify with ⟨hst, hf, hwhy⟩ | ⟨hst, hf, hroom, hio⟩
      · have hafter : afterQueue s t n (fifoQueue s.fifo n ioModify) = s.setWriter t .idle := by
          rw [afterQueue, nspSuccess, if_neg (by simpa using hst), hf]
          rfl
        rw [hafter]
        exact .reject hn hwhy
      · rw [afterQueue, nspSuccess, if_pos (by simpa using hst), hf]
        exact .queue hn hroom hio
    · cases h

/-- The steps of the worker, one by one. -/
inductive WorkerStep (s : State Tid) : WorkerAct → State Tid → Prop where
  | epollout : WorkerStep s .epollout s.addTask
  | getTask {tasks : Nat} : s.worker = .idle → s.tasks = tasks + 1 →
      WorkerStep s .getTask ({ s with tasks := tasks }.setWorker .top)
  | empty : s.worker = .top → s.fifo.head = [] → WorkerStep s .top (s.setWorker .idle)
  | top {n : TxNode} {nodes : List TxNode} : s.worker = .top → s.fifo.head = n :: nodes →
      WorkerStep s .top (s.setWorker (txLoop n))
  | send {n : TxNode} {nodes : List TxNode} {wcb : Nat} : s.worker = .txn →
      s.fifo.head = n :: nodes → Sendable n wcb →
      WorkerStep s (.send wcb) (afterTx (s.transmit (n.rest.take wcb)) (n.advance wcb) nodes)
  | eagain : s.worker = .txn → WorkerStep s .eagain (s.setWorker .idle)
  | pop {r : TxFifo × Bool} : s.worker = .pop → fifoPop s.fifo = some r →
      WorkerStep s .pop (afterPop s r)
  | popEmpty : s.worker = .pop → fifoPop s.fifo = none → WorkerStep s .pop (s.setWorker .idle)
  | cancel (ioModify : Int) : s.worker = .cancel → WorkerStep s (.cancel ioModify)
      (((s.setEpollout (s.epollout && !nspSuccess ioModify)).addTask).setWorker .idle)

omit [DecidableEq Tid] in
theorem workerStep_inv {s s' : State Tid} {act : WorkerAct} (h : workerStep s act = some s') :
    WorkerStep s act s' := by
  cases act with
  | epollout =>
    cases h
    exact .epollout
  | getTask =>
    rw [workerStep] at h
    split at h
    · rename_i tasks hw htasks
      cases h
      exact .getTask hw htasks
    · cases h
  | top =>
    rw [workerStep, fifoTop] at h
    split at h
    · rename_i hw
      split at h
      · rename_i hnone
        cases h
        exact .empty hw (List.head?_eq_none_iff.mp hnone)
      · rename_i n hn
        cases h
        obtain ⟨nodes, hnodes⟩ := List.head?_eq_some_iff.mp hn
        exact .top hw hnodes
    · cases h
  | send wcb =>
    rw [workerStep] at h
    split at h
    · rename_i n nodes hw hhead
      split at h
      · rename_i hs
        cases h
        exact .send hw hhead hs
      · cases h
    · cases h
  | eagain =>
    rw [workerStep] at h
    split at h
    · rename_i hw
      cases h
      exact .eagain hw
    · cases h
  | pop =>
    rw [workerStep] at h
    split at h
    · rename_i hw
      split at h
      · rename_i hnone
        cases h
        exact .popEmpty hw hnone
      · rename_i r hr
        cases h
        exact .pop hw hr
    · cases h
  | cancel ioModify =>
    rw [workerStep] at h
    split at h
    · rename_i hw
      cases h
      exact .cancel ioModify hw
    · cases h

end Tcp

end LibNax
