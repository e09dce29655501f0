import LibNax.Common
import LibNax.Tcp.Transmit

/-!
# The queue of a UDP link

A datagram that the kernel does not take at once is queued, and the worker of the pool sends it when
the socket can be written again.  The queue is the one of the TCP links.  `_wp_exec` removes the
first node after the handler of the link has succeeded: `tcp_tx` leaves it there, but `udp_tx` has
already removed it, and so a second datagram, which was never sent, is lost with each one that is.

* `udpWriteNode` — the part of `udp_write` that builds the datagram.
* `State`, `step` — the queue and the worker, between the locks they take.
* `ExactlyOnce` — what was sent, and that what was removed has been sent.
* `exactlyOnce_of_run` — it holds as long as the second removal finds nothing.
* `udpTx_loses` — two datagrams, of which the second is never sent.

The direct attempt of `udp_write` does not touch the queue, and neither does the change of the epoll
events in `fifo_pop`.  Where a datagram is sent to does not matter here.
-/

set_option autoImplicit false

namespace LibNax

namespace Udp

open Tcp

/-! ## The system -/

/-- `MAX_UDP_UNIT`. -/
def maxUdpUnit : Nat := 1472

/-- The arguments of `udp_write` and what the calls into the allocator return. -/
structure UdpWrite where
  /-- The user data, null as the empty list. -/
  origin : List UInt8
  /-- The address, or null. -/
  ipstr : Option String
  /-- The port. -/
  port : UInt16
  /-- Whether the link is a domain socket. -/
  domain : Bool
  /-- The serializer, or null: it either fails or fills a buffer of the length of the user data. -/
  serializer : Option ((o : List UInt8) → Except Int (List.Vector UInt8 o.length))
  /-- Whether there is memory for the datagram. -/
  mallocBuffer : Bool
  /-- Whether there is memory for the node. -/
  mallocNode : Bool

/-- `udp_write` up to the test of the queue: the node, or the status the call returns. -/
def udpWriteNode (w : UdpWrite) (call : Nat) : Except Int TxNode :=
  if w.ipstr = none ∨ w.origin.length = 0 ∨ maxUdpUnit < w.origin.length then .error eInval
  else if w.ipstr = some "" then .error eInval
  else if w.port = 0 ∧ !w.domain then .error eInval
  else if !w.mallocBuffer then .error eNomem
  else
    let buffer : Except Int (List UInt8) :=
      match w.serializer with
      | none => .ok w.origin
      | some serializer =>
        match serializer w.origin with
        | .error _ => .error nspStatusFatal
        | .ok data => .ok data.toList
    match buffer with
    | .error status => .error status
    | .ok data => if w.mallocNode then .ok ⟨call, data, 0⟩ else .error eNomem

/-- Where the worker stands in `_wp_exec` for the link. -/
inductive Worker where
  /-- It does not serve the link. -/
  | idle
  /-- In `udp_tx` before `fifo_top`. -/
  | top
  /-- In the loop of `udp_txn` for the first node. -/
  | txn
  /-- In `udp_tx` before `fifo_pop`. -/
  | pop
  /-- Back in `_wp_exec`, before its own `fifo_pop`. -/
  | popAgain

/-- A link with its queue and the worker. -/
structure State where
  /-- The queue. -/
  fifo : TxFifo
  /-- The tasks of the link that wait for the worker. -/
  tasks : Nat
  /-- The worker. -/
  worker : Worker
  /-- How many calls have built a datagram. -/
  calls : Nat
  /-- The datagrams that `fifo_queue` accepted. -/
  queued : List Call
  /-- The datagrams that the worker has sent. -/
  sent : List Call
  /-- The datagrams that were removed from the queue. -/
  removed : List Call

/-- The link before the first call. -/
def initial : State := ⟨fifoInit, 0, .idle, 0, [], [], []⟩

/-- What happens next, with the outcome of the calls that are made. -/
inductive Act where
  /-- `udp_write` gets to `fifo_queue`, where `io_modify` returns the status if it is called. -/
  | queue (w : UdpWrite) (ioModify : Int)
  /-- The event `EPOLLOUT` queues a task. -/
  | epollout
  /-- `_wp_get_task`. -/
  | getTask
  /-- `fifo_top`. -/
  | top
  /-- `ncb_senddata` sends the datagram. -/
  | send
  /-- `ncb_senddata` fails with `EAGAIN`. -/
  | eagain
  /-- `fifo_pop` in `udp_tx`. -/
  | pop
  /-- `fifo_pop` in `_wp_exec`. -/
  | popAgain

/-- The head of the loop in `udp_txn`. -/
def txLoop (n : TxNode) : Worker := if n.offset < n.data.length then .txn else .pop

/-- A writer after `fifo_queue`. -/
def afterQueue (s : State) (n : TxNode) (r : Int × TxFifo × Bool) : State :=
  if nspSuccess r.1 then
    { s with fifo := r.2.1, calls := s.calls + 1, queued := s.queued ++ [n.toCall] }
  else { s with fifo := r.2.1, calls := s.calls + 1 }

/-- The queue after `fifo_pop`, with the node that it freed. -/
def afterPop (s : State) (f : TxFifo) : State :=
  { s with fifo := f, removed := s.removed ++ (s.fifo.head.take 1).map TxNode.toCall }

/-- One step, if the worker stands where it is taken. -/
def step (s : State) : Act → Option State
  | .queue w ioModify =>
    match udpWriteNode w s.calls with
    | .error _ => some s
    | .ok n => some (afterQueue s n (fifoQueue s.fifo n ioModify))
  | .epollout => some { s with tasks := s.tasks + 1 }
  | .getTask =>
    match s.worker, s.tasks with
    | .idle, tasks + 1 => some { s with tasks := tasks, worker := .top }
    | _, _ => none
  | .top =>
    match s.worker with
    | .top =>
      match fifoTop s.fifo with
      | none => some { s with worker := .idle }
      | some n => some { s with worker := txLoop n }
    | _ => none
  | .send =>
    match s.worker, s.fifo.head with
    | .txn, n :: nodes =>
      some { s with
        fifo := { s.fifo with head := n.advance n.rest.length :: nodes }
        worker := txLoop (n.advance n.rest.length)
        sent := s.sent ++ [⟨n.call, n.rest⟩] }
    | _, _ => none
  | .eagain =>
    match s.worker with
    | .txn => some { s with worker := .idle }
    | _ => none
  | .pop =>
    match s.worker with
    | .pop =>
      match fifoPop s.fifo with
      | none => some { s with worker := .idle }
      | some r => some { afterPop s r.1 with worker := .popAgain }
    | _ => none
  | .popAgain =>
    match s.worker with
    | .popAgain =>
      match fifoPop s.fifo with
      | none => some { s with worker := .idle }
      | some r => some { afterPop s r.1 with worker := .idle, tasks := s.tasks + 1 }
    | _ => none

/-- The datagrams that were sent are, in order, a prefix of those that were queued, and each one
that was removed from the queue was sent exactly once. -/
structure ExactlyOnce (s : State) : Prop where
  sent : s.sent <+: s.queued
  removed : ∀ c ∈ s.removed, s.sent.count c = 1

/-- The `fifo_pop` of `_wp_exec` finds nothing to remove. -/
def PopsNothing (s : State) : Act → Prop
  | .popAgain => s.fifo.head = []
  | _ => True

/-! ## The invariant -/

/-- How many nodes at the head of the queue have been sent. -/
def Worker.done : Worker → Nat
  | .pop => 1
  | _ => 0

/-- Nothing of the node has been sent, and it has something to send. -/
def Unsent (n : TxNode) : Prop := n.offset = 0 ∧ 0 < n.data.length

/-- The invariant of the link.  A datagram is removed right after it was sent. -/
structure Inv (s : State) : Prop where
  /-- The queue counts its nodes. -/
  fifo : s.fifo.Wf
  /-- The worker is at the first node. -/
  served : s.worker.done ≤ s.fifo.head.length
  /-- The other nodes are as they were queued. -/
  unsent : ∀ n ∈ s.fifo.head.drop s.worker.done, Unsent n
  /-- What was queued is removed or still there. -/
  queued : s.queued = s.removed ++ s.fifo.head.map TxNode.toCall
  /-- What was sent is removed or about to be. -/
  sent : s.sent = s.removed ++ (s.fifo.head.take s.worker.done).map TxNode.toCall
  /-- The datagrams have different numbers. -/
  nodup : s.queued.Nodup
  /-- The numbers were given out. -/
  below : ∀ c ∈ s.queued, c.id < s.calls

theorem inv_initial : Inv initial where
  fifo := fifoInit_wf
  served := Nat.le_refl 0
  unsent := fun _ h => by cases h
  queued := rfl
  sent := rfl
  nodup := List.nodup_nil
  below := fun _ h => by cases h

theorem udpWriteNode_ok {w : UdpWrite} {call : Nat} {n : TxNode} (h : udpWriteNode w call = .ok n) :
    n.call = call ∧ Unsent n := by
  rw [udpWriteNode] at h
  split at h
  · cases h
  rename_i hargs
  split at h
  · cases h
  split at h
  · cases h
  split at h
  · cases h
  dsimp only at h
  split at h
  · cases h
  rename_i data hdata
  split at h
  · cases h
    refine ⟨rfl, rfl, ?_⟩
    have hpos : 0 < w.origin.length := by omega
    show 0 < data.length
    split at hdata
    · cases hdata
      exact hpos
    · split at hdata
      · cases hdata
      · rename_i v _
        cases hdata
        exact v.toList_length.symm ▸ hpos
  · cases h

/-- The worker moves and the queue stays as it is. -/
theorem Inv.of_worker {s s' : State} (h : Inv s) (hdone : s'.worker.done = s.worker.done)
    (hfifo : s'.fifo = s.fifo) (hcalls : s'.calls = s.calls) (hqueued : s'.queued = s.queued)
    (hsent : s'.sent = s.sent) (hremoved : s'.removed = s.removed) : Inv s' where
  fifo := hfifo ▸ h.fifo
  served := by rw [hdone, hfifo]; exact h.served
  unsent := by rw [hdone, hfifo]; exact h.unsent
  queued := by rw [hqueued, hremoved, hfifo]; exact h.queued
  sent := by rw [hsent, hremoved, hfifo, hdone]; exact h.sent
  nodup := hqueued ▸ h.nodup
  below := by rw [hqueued, hcalls]; exact h.below

theorem inv_queue {s : State} {n : TxNode} (h : Inv s) (hcall : n.call = s.calls) (hn : Unsent n)
    (ioModify : Int) : Inv (afterQueue s n (fifoQueue s.fifo n ioModify)) := by
  rcases fifoQueue_cases s.fifo n ioModify with ⟨hst, hf, -⟩ | ⟨hst, hf, -, -⟩
  · rw [afterQueue, nspSuccess, if_neg (by simpa using hst), hf]
    exact ⟨h.fifo, h.served, h.unsent, h.queued, h.sent, h.nodup,
      fun c hc => Nat.lt_succ_of_lt (h.below c hc)⟩
  · rw [afterQueue, nspSuccess, if_pos (by simpa using hst), hf]
    refine ⟨h.fifo.append n, ?_, ?_, ?_, ?_, ?_, ?_⟩
    · show s.worker.done ≤ (s.fifo.head ++ [n]).length
      rw [List.length_append]
      exact Nat.le_add_right_of_le h.served
    · intro m hm
      rw [List.drop_append_of_le_length h.served, List.mem_append, List.mem_singleton] at hm
      rcases hm with hm | rfl
      · exact h.unsent m hm
      · exact hn
    · show s.queued ++ [n.toCall] = s.removed ++ (s.fifo.head ++ [n]).map TxNode.toCall
      rw [h.queued, List.append_assoc, List.map_append]
      rfl
    · show s.sent = s.removed ++ ((s.fifo.head ++ [n]).take s.worker.done).map TxNode.toCall
      rw [List.take_append_of_le_length h.served]
      exact h.sent
    · refine List.nodup_append.mpr ⟨h.nodup, List.nodup_singleton _, fun c hc d hd => ?_⟩
      -- the number of the new datagram is larger than all before
      rw [List.mem_singleton.mp hd]
      intro hcd
      have hlt := h.below c hc
      rw [hcd] at hlt
      exact absurd hcall (Nat.ne_of_lt hlt)
    · intro c hc
      rcases List.mem_append.mp hc with hc | hc
      · exact Nat.lt_succ_of_lt (h.below c hc)
      · rw [List.mem_singleton.mp hc]
        exact Nat.lt_succ_of_le (Nat.le_of_eq hcall)

theorem txLoop_of_unsent {n : TxNode} (h : Unsent n) : txLoop n = .txn := by
  rw [txLoop, if_pos]
  rw [h.1]
  exact h.2

theorem txLoop_of_sent {n : TxNode} (h : Unsent n) : txLoop (n.advance n.rest.length) = .pop := by
  rw [txLoop, if_neg]
  rw [TxNode.advance_offset, TxNode.advance_data, TxNode.rest_of_fresh h.1]
  omega

/-- The first datagram is sent as it was queued. -/
theorem inv_send {s s' : State} (h : Inv s) (hw : s.worker = .txn)
    (hs : step s .send = some s') : Inv s' := by
  rw [step, hw] at hs
  split at hs
  · rename_i n nodes _ hhead
    cases hs
    have hdone : s.worker.done = 0 := by rw [hw]; rfl
    have hunsent := h.unsent
    have hqueued := h.queued
    have hsent := h.sent
    rw [hdone, hhead] at hunsent
    rw [hdone, hhead, List.take_zero, List.map_nil, List.append_nil] at hsent
    rw [hhead] at hqueued
    have hn : Unsent n := hunsent n List.mem_cons_self
    rw [txLoop_of_sent hn, TxNode.rest_of_fresh hn.1]
    refine ⟨⟨?_, ?_⟩, Nat.succ_le_succ (Nat.zero_le _), ?_, hqueued, ?_, h.nodup, h.below⟩
    · exact h.fifo.size.trans (by rw [hhead]; rfl)
    · exact h.fifo.overflow.trans (by simp [hhead])
    · exact fun m hm => hunsent m (List.mem_cons_of_mem n hm)
    · exact hsent ▸ rfl
  · cases hs

theorem Inv.head_cons {s : State} (h : Inv s) (hw : s.worker = .pop) :
    ∃ n nodes, s.fifo.head = n :: nodes := by
  have hserved := h.served
  rw [hw] at hserved
  exact List.exists_cons_of_length_pos hserved

/-- `fifo_pop` in `udp_tx` removes the datagram that was sent. -/
theorem inv_pop {s : State} {r : TxFifo × Bool} (h : Inv s) (hw : s.worker = .pop)
    (hr : fifoPop s.fifo = some r) : Inv { afterPop s r.1 with worker := .popAgain } := by
  have hdone : s.worker.done = 1 := by rw [hw]; rfl
  obtain ⟨n, nodes, hhead⟩ := h.head_cons hw
  obtain ⟨f', canceled, hpop, hf', hnodes, -⟩ := fifoPop_cons h.fifo hhead
  rw [hpop, Option.some.injEq] at hr
  subst hr
  have hunsent := h.unsent
  have hqueued := h.queued
  have hsent := h.sent
  rw [hdone, hhead] at hunsent hsent
  rw [hhead] at hqueued
  refine ⟨hf', Nat.zero_le _, ?_, ?_, ?_, h.nodup, h.below⟩
  · show ∀ m ∈ f'.head, Unsent m
    rw [hnodes]
    exact hunsent
  · show s.queued = (s.removed ++ (s.fifo.head.take 1).map TxNode.toCall) ++
      f'.head.map TxNode.toCall
    rw [hqueued, hhead, hnodes, List.append_assoc]
    rfl
  · show s.sent = (s.removed ++ (s.fifo.head.take 1).map TxNode.toCall) ++ []
    rw [hsent, hhead, List.append_nil]

theorem inv_step {s s' : State} {a : Act} (h : Inv s) (ha : PopsNothing s a)
    (hs : step s a = some s') : Inv s' := by
  cases a with
  | queue w ioModify =>
    rw [step] at hs
    split at hs
    · cases hs
      exact h
    · rename_i n hn
      cases hs
      obtain ⟨hcall, hunsent⟩ := udpWriteNode_ok hn
      exact inv_queue h hcall hunsent ioModify
  | epollout =>
    cases hs
    exact h.of_worker rfl rfl rfl rfl rfl rfl
  | getTask =>
    rw [step] at hs
    split at hs
    · rename_i hw _
      cases hs
      exact h.of_worker (by rw [hw]; rfl) rfl rfl rfl rfl rfl
    · cases hs
  | top =>
    rw [step] at hs
    split at hs
    · rename_i hw
      split at hs
      · cases hs
        exact h.of_worker (by rw [hw]; rfl) rfl rfl rfl rfl rfl
      · rename_i n hn
        cases hs
        have hmem : n ∈ s.fifo.head := List.mem_of_mem_head? hn
        have hunsent : Unsent n := h.unsent n (by rw [hw]; exact hmem)
        refine h.of_worker ?_ rfl rfl rfl rfl rfl
        rw [hw, txLoop_of_unsent hunsent]
        rfl
    · cases hs
  | send =>
    refine inv_send h ?_ hs
    rw [step] at hs
    split at hs
    · assumption
    · cases hs
  | eagain =>
    rw [step] at hs
    split at hs
    · rename_i hw
      cases hs
      exact h.of_worker (by rw [hw]; rfl) rfl rfl rfl rfl rfl
    · cases hs
  | pop =>
    rw [step] at hs
    split at hs
    · rename_i hw
      split at hs
      · rename_i hnone
        cases hs
        obtain ⟨n, nodes, hhead⟩ := h.head_cons hw
        obtain ⟨f', canceled, hpop, -⟩ := fifoPop_cons h.fifo hhead
        rw [hnone] at hpop
        cases hpop
      · rename_i r hr
        cases hs
        exact inv_pop h hw hr
    · cases hs
  | popAgain =>
    rw [step] at hs
    split at hs
    · rename_i hw
      have hhead : s.fifo.head = [] := ha
      rw [fifoPop, hhead] at hs
      cases hs
      exact h.of_worker (by rw [hw]; rfl) rfl rfl rfl rfl rfl
    · cases hs

theorem Inv.exactlyOnce {s : State} (h : Inv s) : ExactlyOnce s := by
  have hstart : s.sent <+: s.queued := by
    rw [h.sent, h.queued, List.prefix_append_right_inj]
    exact (List.take_prefix _ _).map _
  refine ⟨hstart, fun c hc => ?_⟩
  have hmem : c ∈ s.sent := by
    rw [h.sent]
    exact List.mem_append_left _ hc
  exact List.count_eq_one_of_mem (h.nodup.sublist hstart.sublist) hmem

/-- **Queued datagrams are sent exactly once.**  In every run of calls that queue datagrams on a
link and of executions of its task, where the kernel takes a datagram whole or not at all, as long
as the `fifo_pop` of `_wp_exec`, after the one of `udp_tx`, finds nothing to remove. -/
theorem exactlyOnce_of_run {acts : List Act} {s : State}
    (hrun : Lib.Run (fun s a s' => PopsNothing s a ∧ step s a = some s') initial acts s) :
    ExactlyOnce s := by
  have h : Inv s :=
    hrun.invariant (fun s a s' (h : Inv s) hs => inv_step h hs.1 hs.2) inv_initial
  exact h.exactlyOnce

instance (s : State) (a : Act) : Decidable (PopsNothing s a) :=
  match a with
  | .popAgain =>
    match hhead : s.fifo.head with
    | [] => .isTrue hhead
    | n :: nodes => .isFalse fun h => List.cons_ne_nil n nodes (hhead.symm.trans h)
  | .queue _ _ => .isTrue trivial
  | .epollout => .isTrue trivial
  | .getTask => .isTrue trivial
  | .top => .isTrue trivial
  | .send => .isTrue trivial
  | .eagain => .isTrue trivial
  | .pop => .isTrue trivial

/-- A call of `udp_write` without a serializer. -/
def plainWrite (origin : List UInt8) : UdpWrite :=
  ⟨origin, some "127.0.0.1", 10256, false, none, true, true⟩

/-- Two datagrams, of which the second is queued after the first was sent. -/
theorem exactlyOnce_of_run_example : ∃ s : State, Lib.Run
    (fun s a s' => PopsNothing s a ∧ step s a = some s') initial
    [.queue (plainWrite [1, 2]) 0, .epollout, .getTask, .top, .eagain, .epollout, .getTask, .top,
      .send, .pop, .popAgain, .queue (plainWrite [3]) 0, .epollout, .getTask, .top, .send, .pop] s ∧
    s.sent = [⟨0, [1, 2]⟩, ⟨1, [3]⟩] ∧ ExactlyOnce s := by
  obtain ⟨s, hexec, hsent⟩ : ∃ s : State, Lib.exec
      (fun s a => if PopsNothing s a then step s a else none) initial
      [.queue (plainWrite [1, 2]) 0, .epollout, .getTask, .top, .eagain, .epollout, .getTask, .top,
        .send, .pop, .popAgain, .queue (plainWrite [3]) 0, .epollout, .getTask, .top, .send,
        .pop] = some s ∧ s.sent = [⟨0, [1, 2]⟩, ⟨1, [3]⟩] :=
    ⟨_, rfl, rfl⟩
  have hrun := Lib.Run.of_exec (fun s a s' h => show PopsNothing s a ∧ step s a = some s' from
    Option.ite_none_right_eq_some.mp h) hexec
  exact ⟨s, hrun, hsent, exactlyOnce_of_run hrun⟩

/-- Two datagrams wait.  The worker sends the first, `udp_tx` removes it, and `_wp_exec` removes the
second. -/
theorem udpTx_loses : ∃ s : State, Lib.Run (fun s a s' => step s a = some s') initial
    [.queue (plainWrite [1, 2]) 0, .queue (plainWrite [3]) 0, .epollout, .getTask, .top, .send,
      .pop, .popAgain] s ∧ ¬ExactlyOnce s := by
  obtain ⟨s, hexec, hsent, hremoved⟩ : ∃ s : State, Lib.exec step initial
      [.queue (plainWrite [1, 2]) 0, .queue (plainWrite [3]) 0, .epollout, .getTask, .top, .send,
        .pop, .popAgain] = some s ∧ s.sent = [⟨0, [1, 2]⟩] ∧
        s.removed = [⟨0, [1, 2]⟩, ⟨1, [3]⟩] :=
    ⟨_, rfl, rfl, rfl⟩
  refine ⟨s, Lib.Run.of_exec (fun _ _ _ h => h) hexec, fun h => ?_⟩
  have hcount := h.removed ⟨1, [3]⟩ (by rw [hremoved]; decide)
  rw [hsent] at hcount
  revert hcount
  decide

end Udp

end LibNax
