import LibNax.Tcp.Order

/-!
# A transmit queue that nobody drains

A link with packets in its queue has to be registered for `EPOLLOUT`, or to have a task for the
worker: otherwise nothing takes the packets out.  `fifo_queue` registers the link under the lock of
the queue.  `fifo_pop` takes the last packet under the lock and cancels the registration after it
has released the lock, so that a packet queued in between loses its event.

* `NoStall` — the queue is served, in a state in which no call is at work on it.
* `Armed` — the invariant, with the worker inside of `fifo_pop`.
* `noStall_of_run` — it holds as long as nothing is queued while the worker is there.
* `fifoPop_stalls` — a run that leaves a packet in the queue for good.
-/

set_option autoImplicit false

namespace LibNax

namespace Tcp

variable {Tid : Type} [DecidableEq Tid]

/-- No call of `fifo_queue` or `fifo_pop` is in progress.  The first holds the lock from its start
to its end, the second is in progress where it still has to cancel the event. -/
def Calm (s : State Tid) : Prop := s.worker ≠ .cancel

/-- A queue with a packet is registered for `EPOLLOUT`, or a task waits for the worker or is with
it, and the flag of an empty queue is clear. -/
structure NoStall (s : State Tid) : Prop where
  served : s.fifo.head ≠ [] →
    (s.fifo.txOverflow = true ∧ s.epollout = true) ∨ 0 < s.tasks ∨ s.worker ≠ .idle
  clear : s.fifo.head = [] → s.fifo.txOverflow = false

/-- Every `epoll_ctl` succeeds. -/
def EpollOk : Act Tid → Prop
  | .writer _ (.queue ioModify) => 0 ≤ ioModify
  | .worker (.cancel ioModify) => 0 ≤ ioModify
  | _ => True

/-- Nothing is queued while the worker is between the lock of `fifo_pop` and its `io_modify`. -/
def NoQueueInPop (s : State Tid) : Act Tid → Prop
  | .writer _ (.queue _) => s.worker ≠ .cancel
  | _ => True

/-- The queue with the worker inside of `fifo_pop`. -/
structure Armed (s : State Tid) : Prop where
  wf : s.fifo.Wf
  canceled : s.worker = .cancel → s.fifo.head = []
  armed : s.worker ≠ .cancel → s.fifo.head ≠ [] → s.epollout = true

omit [DecidableEq Tid] in
theorem armed_initial : Armed (initial : State Tid) :=
  ⟨fifoInit_wf, fun h => (by cases h), fun _ h => absurd rfl h⟩

omit [DecidableEq Tid] in
/-- A step that leaves the queue, its event and the worker alone. -/
theorem Armed.frame {s s' : State Tid} (h : Armed s) (hfifo : s'.fifo = s.fifo)
    (hepoll : s'.epollout = s.epollout) (hworker : s'.worker = s.worker) : Armed s' := by
  refine ⟨?_, ?_, ?_⟩
  · rw [hfifo]
    exact h.wf
  · rw [hworker, hfifo]
    exact h.canceled
  · rw [hworker, hfifo, hepoll]
    exact h.armed

theorem txnLoop_frame (s : State Tid) (t : Tid) (n : TxNode) :
    (txnLoop s t n).fifo = s.fifo ∧ (txnLoop s t n).epollout = s.epollout ∧
      (txnLoop s t n).worker = s.worker := by
  rw [txnLoop]
  split
  · exact ⟨rfl, rfl, rfl⟩
  · exact ⟨rfl, rfl, rfl⟩

theorem Armed.writerStep {l : TxLink} {s s' : State Tid} {t : Tid} {act : WriterAct} (h : Armed s)
    (hq : NoQueueInPop s (.writer t act)) (hs : WriterStep l s t act s') : Armed s' := by
  cases hs with
  | refuse w => exact h
  | build => exact h.frame rfl rfl rfl
  | overflow => exact h.frame rfl rfl rfl
  | direct =>
    obtain ⟨h₁, h₂, h₃⟩ := txnLoop_frame s t _
    exact h.frame h₁ h₂ h₃
  | send =>
    obtain ⟨h₁, h₂, h₃⟩ := txnLoop_frame (s.transmit _) t _
    exact h.frame h₁ h₂ h₃
  | eagain => exact h.frame rfl rfl rfl
  | reject => exact h.frame rfl rfl rfl
  | @queue n ioModify hn hroom hio =>
    have hworker : s.worker ≠ .cancel := hq
    refine ⟨h.wf.append n, fun hc => absurd hc hworker, fun _ _ => ?_⟩
    -- the flag was set and so was the event, or this call sets both
    show (s.epollout || !s.fifo.txOverflow) = true
    cases hov : s.fifo.txOverflow with
    | false => exact Bool.or_true _
    | true =>
      rw [h.armed hworker (h.wf.overflow.mp hov)]
      rfl

omit [DecidableEq Tid] in
theorem txLoop_ne_cancel (n : TxNode) : txLoop n ≠ .cancel := by
  rw [txLoop]
  split
  · exact Worker.noConfusion
  · exact Worker.noConfusion

omit [DecidableEq Tid] in
/-- The worker moves on, but not into the cancellation. -/
theorem Armed.setWorker {s : State Tid} (h : Armed s) (hw : s.worker ≠ .cancel) {w : Worker}
    (hne : w ≠ .cancel) : Armed (s.setWorker w) :=
  ⟨h.wf, fun hc => absurd hc hne, fun _ => h.armed hw⟩

omit [DecidableEq Tid] in
theorem Armed.workerStep {s s' : State Tid} {act : WorkerAct} (h : Armed s)
    (hs : WorkerStep s act s') : Armed s' := by
  cases hs with
  | epollout => exact h.frame rfl rfl rfl
  | @getTask tasks hw htasks =>
    have hne : s.worker ≠ .cancel := by
      rw [hw]
      exact Worker.noConfusion
    exact ⟨h.wf, fun hc => Worker.noConfusion hc, fun _ => h.armed hne⟩
  | empty hw =>
    exact h.setWorker (by rw [hw]; exact Worker.noConfusion) Worker.noConfusion
  | top hw =>
    exact h.setWorker (by rw [hw]; exact Worker.noConfusion) (txLoop_ne_cancel _)
  | @send n nodes wcb hw hhead hsend =>
    have hne : s.worker ≠ .cancel := by
      rw [hw]
      exact Worker.noConfusion
    have harmed := h.armed hne (by rw [hhead]; exact List.cons_ne_nil _ _)
    refine ⟨⟨?_, ?_⟩, fun hc => absurd hc (txLoop_ne_cancel _), fun _ _ => harmed⟩
    · refine h.wf.size.trans ?_
      rw [hhead]
      rfl
    · refine h.wf.overflow.trans ?_
      rw [hhead]
      exact ⟨fun _ => List.cons_ne_nil _ _, fun _ => List.cons_ne_nil _ _⟩
  | eagain hw =>
    exact h.setWorker (by rw [hw]; exact Worker.noConfusion) Worker.noConfusion
  | @pop r hw hpop =>
    have hne : s.worker ≠ .cancel := by
      rw [hw]
      exact Worker.noConfusion
    cases hhead : s.fifo.head with
    | nil =>
      rw [fifoPop, hhead] at hpop
      cases hpop
    | cons n nodes =>
      obtain ⟨f', canceled, hpop', hwf, hnodes, hcanceled⟩ := fifoPop_cons h.wf hhead
      rw [hpop] at hpop'
      cases hpop'
      have harmed := h.armed hne (by rw [hhead]; exact List.cons_ne_nil _ _)
      cases canceled with
      | true => exact ⟨hwf, fun _ => hnodes.trans (hcanceled.mp rfl), fun hc => absurd rfl hc⟩
      | false => exact ⟨hwf, fun hc => Worker.noConfusion hc, fun _ _ => harmed⟩
  | popEmpty hw =>
    exact h.setWorker (by rw [hw]; exact Worker.noConfusion) Worker.noConfusion
  | cancel ioModify hw =>
    exact ⟨h.wf, fun hc => Worker.noConfusion hc, fun _ hne => absurd (h.canceled hw) hne⟩

theorem Armed.step {l : TxLink} {s s' : State Tid} {a : Act Tid} (h : Armed s)
    (hq : NoQueueInPop s a) (hs : step l s a = some s') : Armed s' := by
  rcases a with ⟨t, act⟩ | act
  · exact h.writerStep hq (writerStep_inv hs)
  · exact h.workerStep (workerStep_inv hs)

/-- **The queue does not stall.**  In every run of any number of threads that call `tcp_write` on a
link, together with the worker, a queue with a packet is served whenever no call is at work on it,
as long as nothing is queued between the lock of a `fifo_pop` and its `io_modify`. -/
theorem noStall_of_run {l : TxLink} {acts : List (Act Tid)} {s : State Tid}
    (hrun : Lib.Run (fun s a s' => (EpollOk a ∧ NoQueueInPop s a) ∧ step l s a = some s') initial
      acts s) (hcalm : Calm s) : NoStall s := by
  have h : Armed s := hrun.invariant (fun s a s' h hs => h.step hs.1.2 hs.2) armed_initial
  refine ⟨fun hne => .inl ⟨h.wf.overflow.mpr hne, h.armed hcalm hne⟩, fun hnil => ?_⟩
  rw [← Bool.not_eq_true, h.wf.overflow]
  exact fun hne => hne hnil

instance (w : Worker) : Decidable (w ≠ .cancel) :=
  match w with
  | .idle => .isTrue Worker.noConfusion
  | .top => .isTrue Worker.noConfusion
  | .txn => .isTrue Worker.noConfusion
  | .pop => .isTrue Worker.noConfusion
  | .cancel => .isFalse fun h => h rfl

omit [DecidableEq Tid] in
instance (a : Act Tid) : Decidable (EpollOk a) :=
  match a with
  | .writer _ (.queue ioModify) => inferInstanceAs (Decidable (0 ≤ ioModify))
  | .worker (.cancel ioModify) => inferInstanceAs (Decidable (0 ≤ ioModify))
  | .writer _ (.write _) => .isTrue trivial
  | .writer _ .test => .isTrue trivial
  | .writer _ (.send _) => .isTrue trivial
  | .writer _ .eagain => .isTrue trivial
  | .worker .epollout => .isTrue trivial
  | .worker .getTask => .isTrue trivial
  | .worker .top => .isTrue trivial
  | .worker (.send _) => .isTrue trivial
  | .worker .eagain => .isTrue trivial
  | .worker .pop => .isTrue trivial

omit [DecidableEq Tid] in
instance (s : State Tid) (a : Act Tid) : Decidable (NoQueueInPop s a) :=
  match a with
  | .writer _ (.queue _) => inferInstanceAs (Decidable (s.worker ≠ .cancel))
  | .writer _ (.write _) => .isTrue trivial
  | .writer _ .test => .isTrue trivial
  | .writer _ (.send _) => .isTrue trivial
  | .writer _ .eagain => .isTrue trivial
  | .worker _ => .isTrue trivial

/-- A packet is queued after the worker has canceled the event, and its event stays. -/
theorem noStall_of_run_example : ∃ s : State Unit, Lib.Run
    (fun s a s' => (EpollOk a ∧ NoQueueInPop s a) ∧ step nonblockLink s a = some s') initial
    [.writer () (.write (plainWrite [1, 2])), .writer () .test, .writer () .eagain,
      .writer () (.queue 0), .worker .epollout, .worker .getTask, .worker .top, .worker (.send 2),
      .worker .pop, .worker (.cancel 0), .writer () (.write (plainWrite [3])), .writer () .test,
      .writer () .eagain, .writer () (.queue 0)] s ∧
    s.fifo.head ≠ [] ∧ NoStall s := by
  obtain ⟨s, hexec, hhead, hcalm⟩ : ∃ s : State Unit, Lib.exec
      (fun s a => if EpollOk a ∧ NoQueueInPop s a then step nonblockLink s a else none) initial
      [.writer () (.write (plainWrite [1, 2])), .writer () .test, .writer () .eagain,
        .writer () (.queue 0), .worker .epollout, .worker .getTask, .worker .top,
        .worker (.send 2), .worker .pop, .worker (.cancel 0),
        .writer () (.write (plainWrite [3])), .writer () .test, .writer () .eagain,
        .writer () (.queue 0)] = some s ∧ s.fifo.head = [⟨1, [3], 0⟩] ∧ s.worker = .idle :=
    ⟨_, rfl, rfl, rfl⟩
  have hrun := Lib.Run.of_exec (fun s a s' h => show (EpollOk a ∧ NoQueueInPop s a) ∧
    step nonblockLink s a = some s' from Option.ite_none_right_eq_some.mp h) hexec
  refine ⟨s, hrun, ?_, noStall_of_run hrun ?_⟩
  · rw [hhead]
    exact List.cons_ne_nil _ _
  · rw [Calm, hcalm]
    exact Worker.noConfusion

/-- The packet `[3]` is queued while the worker is between the lock of `fifo_pop` and its
`io_modify`. The worker cancels the event of the packet and finds the socket full: all calls are
over, the packet is in the queue, and neither an event nor a task is left. -/
theorem fifoPop_stalls : ∃ s : State Unit, Lib.Run
    (fun s a s' => EpollOk a ∧ step nonblockLink s a = some s') initial
    [.writer () (.write (plainWrite [1, 2])), .writer () .test, .writer () .eagain,
      .writer () (.queue 0), .worker .epollout, .worker .getTask, .worker .top, .worker (.send 2),
      .worker .pop, .writer () (.write (plainWrite [3])), .writer () .test, .writer () .eagain,
      .writer () (.queue 0), .worker (.cancel 0), .worker .getTask, .worker .top,
      .worker .eagain] s ∧
    Calm s ∧ s.writer () = .idle ∧ ¬NoStall s := by
  obtain ⟨s, hexec, hworker, hwriter, hhead, hepoll, htasks⟩ : ∃ s : State Unit, Lib.exec
      (fun s a => if EpollOk a then step nonblockLink s a else none) initial
      [.writer () (.write (plainWrite [1, 2])), .writer () .test, .writer () .eagain,
        .writer () (.queue 0), .worker .epollout, .worker .getTask, .worker .top,
        .worker (.send 2), .worker .pop, .writer () (.write (plainWrite [3])), .writer () .test,
        .writer () .eagain, .writer () (.queue 0), .worker (.cancel 0), .worker .getTask,
        .worker .top, .worker .eagain] = some s ∧ s.worker = .idle ∧ s.writer () = .idle ∧
      s.fifo.head = [⟨1, [3], 0⟩] ∧ s.epollout = false ∧ s.tasks = 0 :=
    ⟨_, rfl, rfl, rfl, rfl, rfl, rfl⟩
  have hrun := Lib.Run.of_exec (fun s a s' h => show EpollOk a ∧
    step nonblockLink s a = some s' from Option.ite_none_right_eq_some.mp h) hexec
  refine ⟨s, hrun, ?_, hwriter, fun h => ?_⟩
  · rw [Calm, hworker]
    exact Worker.noConfusion
  · have hne : s.fifo.head ≠ [] := by
      rw [hhead]
      exact List.cons_ne_nil _ _
    rcases h.served hne with ⟨-, harmed⟩ | htask | hbusy
    · rw [hepoll] at harmed
      cases harmed
    · rw [htasks] at htask
      exact Nat.lt_irrefl 0 htask
    · exact hbusy hworker

end Tcp

end LibNax
