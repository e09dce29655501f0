import LibNax.Evfs.Accounting
import LibNax.Evfs.Requests

/-!
# Flushing

`evfs_flush` and `evfs_flush_entry_buffer` hand a task to a worker, the worker calls the handler
that the table has for the type of the task, and the handler puts requests in the queue of the
cache.  The table has the handler of a read for the type of `evfs_flush`: the read is refused, and
nothing is flushed.  The handler of an entry puts a flush of every cluster of the entry in the
queue, and does not wait for them; one that finds the queue full is dropped.

* `IoTask`, `ioTaskExec`, `handle` — a task, the table, and the nine handlers.
* `Station`, `Act`, `step` — a worker and the thread of the cache, beside threads that put requests
  of their own in the queue.
* `GuardedStep` — a step at which no flush is dropped and a legal request is executed.
* `Flushed`, `Untouched` — what a flush should do to a cluster, and to everything else.
* `flush_reaches_disk` — when the two kinds of flush do so.

A handler that reads or writes waits for its tasks, and is run to its end at once when the queue is
empty.  What the other workers do is in the requests that other threads submit.
-/

set_option autoImplicit false

namespace LibNax

namespace Evfs

namespace Flush

open Lib (Run int32 overwrite)

/-! ## The tasks of the workers -/

/-- `enum evfs_io_task_type`. -/
inductive IoTaskType where
  | read
  | write
  | truncate
  | flush
  | flushAll
  | erase
  | eraseByKey
  | create
  | setCache
deriving DecidableEq

/-- The handlers. -/
inductive IoTaskHandler where
  /-- `__evfs_read_entry`. -/
  | readEntry
  /-- `__evfs_write_entry`. -/
  | writeEntry
  /-- `__evfs_truncate_entry`. -/
  | truncateEntry
  /-- `__evfs_flush_entry_buffer`. -/
  | flushEntryBuffer
  /-- `__evfs_earse_entry`. -/
  | earseEntry
  /-- `__evfs_earse_entry_by_key`. -/
  | earseEntryByKey
  /-- `__evfs_create_entry`. -/
  | createEntry
  /-- `__evfs_flush_all`, which is not in the table. -/
  | flushAll

/-- `__evfs_io_task_exec`. -/
def ioTaskExec : IoTaskType → IoTaskHandler
  | .read => .readEntry
  | .write => .writeEntry
  | .truncate => .truncateEntry
  | .flush => .flushEntryBuffer
  | .flushAll => .readEntry
  | .erase => .earseEntry
  | .eraseByKey => .earseEntryByKey
  | .create => .createEntry
  | .setCache => .readEntry

/-- `struct evfs_io_task`. -/
structure IoTask where
  status : Int
  entryId : Int
  offset : Int
  length : Int
  /-- The buffer of the caller, or the key; `none` is the null pointer. -/
  data : Option (List UInt8)
  type : IoTaskType
  retval : Int
  /-- The descriptor of a handle. -/
  descriptor : Option Nat

/-- `struct evfs_entry_descriptor`. -/
structure Descriptor where
  entryId : Int
  offset : Int

/-- Where the worker stands. -/
inductive Worker where
  /-- Waiting for a task. -/
  | idle
  /-- In `evfs_entries_flush`, with a reference to the entry and these views to come. -/
  | flushing (task : IoTask) (e : Int) (views : List Int)
  /-- After the handler. -/
  | done (task : IoTask)

/-- The managers, a worker, and the queue of the cache. -/
structure Station where
  fs : Fs
  descriptors : Nat → Descriptor
  /-- `merge.io`. -/
  merge : List Request
  /-- The requests that were taken out of the queue so far.  The code does not keep them. -/
  executed : List Request
  worker : Worker

/-- `EVFS_MAX_IO_PENDING_COUNT` of `cache.c`. -/
def maxPending : Nat := 160

namespace Station

def cache (s : Station) : Cache := s.fs.vol.io.cache

/-- Everything that was put in the queue, in order. -/
def log (s : Station) : List Request := s.executed ++ s.merge

/-- The handler is done with the task. -/
def finish (s : Station) (task : IoTask) : Station := { s with worker := .done task }

/-- `__evfs_cache_push_task_and_notify_run`. -/
def enqueue (s : Station) (q : Request) : Station :=
  if s.merge.length < maxPending then { s with merge := s.merge ++ [q] } else s

/-- A request that is allocated and not waited for. -/
def push (s : Station) (q : Request) : Station :=
  let s' : Station := { s with fs := s.fs.alloc.2 }
  if s.fs.alloc.1 then s'.enqueue q else s'

/-- A call that waits for its tasks, with those before them in the queue executed. -/
def call {α : Type} (s : Station) (f : Fs → Option (α × Fs)) : Option (α × Station) :=
  if s.merge = [] then (f s.fs).map fun r => (r.1, { s with fs := r.2 }) else none

/-- Writing to a descriptor. -/
def setDescriptor (s : Station) (d : Nat) (descriptor : Descriptor) : Station :=
  { s with descriptors := Function.update s.descriptors d descriptor }

/-- The entry that a task is about. -/
def entryOf (s : Station) (task : IoTask) : Int :=
  match task.descriptor with
  | some d => (s.descriptors d).entryId
  | none => task.entryId

/-- The offset of the descriptor, if there is one, moves on. -/
def advance (s : Station) (task : IoTask) (cpsize : Int) : Station :=
  match task.descriptor with
  | some d =>
    let descriptor := s.descriptors d
    if cpsize > 0 then
      s.setDescriptor d { descriptor with offset := int32 (descriptor.offset + cpsize) }
    else s
  | none => s

end Station

/-! ## The handlers -/

/-- `__evfs_write_entry`. -/
def writeEntry (s : Station) (task : IoTask) : Option Station :=
  let offset := match task.descriptor with
    | some d => (s.descriptors d).offset
    | none => 0
  match task.data with
  | none => some (s.finish { task with status := 0, retval := eInval })
  | some data =>
    (s.call fun fs => writeData fs (s.entryOf task) data offset task.length).map fun r =>
      (r.2.advance task r.1).finish { task with status := 0, retval := r.1 }

/-- `__evfs_read_entry`. -/
def readEntry (s : Station) (task : IoTask) : Option Station :=
  let offset := match task.descriptor with
    | some d => (s.descriptors d).offset
    | none => task.offset
  match task.data with
  | none => some (s.finish { task with status := 0, retval := eInval })
  | some data =>
    (s.call fun fs => (readData fs (s.entryOf task) offset task.length).map fun r =>
      ((r.1, r.2.1), r.2.2)).map fun r =>
        (r.2.advance task r.1.1).finish
          { task with status := 0, retval := r.1.1, data := some (overwrite data 0 r.1.2) }

/-- `__evfs_truncate_entry`. -/
def truncateEntry (s : Station) (task : IoTask) : Option Station :=
  (s.call fun fs => truncate fs (s.entryOf task) (int32 (task.length + maxEntryNameLength))).map
    fun r => r.2.finish { task with status := r.1 }

/-- `__evfs_flush_entry_buffer`, and `evfs_entries_flush` up to its loop.  No other worker changes
the list of the elements meanwhile. -/
def flushEntryBuffer (s : Station) (task : IoTask) : Option Station :=
  let r := referenceHead s.fs (s.entryOf task) .normal
  match r.1 with
  | .error _ => some ({ s with fs := r.2 }.finish { task with status := 0 })
  | .ok e =>
    some { s with fs := r.2, worker := .flushing task e ((r.2.heads e).elements ++ [e]) }

/-- `__evfs_earse_entry`. -/
def earseEntry (s : Station) (task : IoTask) : Option Station :=
  if task.descriptor.isNone ∧ task.entryId ≤ 0 then some (s.finish { task with status := eNoent })
  else
    (s.call fun fs => hardDelete fs (s.entryOf task)).map fun r =>
      r.2.finish { task with status := r.1 }

/-- `__evfs_earse_entry_by_key`. -/
def earseEntryByKey (s : Station) (task : IoTask) : Option Station :=
  task.data.bind fun key =>
    (s.call fun fs => hardDeleteByName fs key).map fun r => r.2.finish { task with status := r.1 }

/-- `__evfs_create_entry`. -/
def createEntry (s : Station) (task : IoTask) : Option Station :=
  (s.call fun fs => (createOne fs task.data).map fun r => ((r.1, r.2.1), r.2.2)).map fun r =>
    if nspSuccess r.1.1 then
      match task.descriptor with
      | some d =>
        (r.2.setDescriptor d { r.2.descriptors d with entryId := r.1.2 }).finish
          { task with status := r.1.1 }
      | none => r.2.finish { task with status := r.1.1, entryId := r.1.2 }
    else r.2.finish { task with status := r.1.1 }

/-- `__evfs_flush_all`. -/
def flushAll (s : Station) (task : IoTask) : Option Station :=
  some ((s.push (.task .flushBufferAll)).finish task)

def IoTaskHandler.run : IoTaskHandler → Station → IoTask → Option Station
  | .readEntry => Flush.readEntry
  | .writeEntry => Flush.writeEntry
  | .truncateEntry => Flush.truncateEntry
  | .flushEntryBuffer => Flush.flushEntryBuffer
  | .earseEntry => Flush.earseEntry
  | .earseEntryByKey => Flush.earseEntryByKey
  | .createEntry => Flush.createEntry
  | .flushAll => Flush.flushAll

/-- The worker executes a task: the handler is the one that the table has for its type. -/
def handle (s : Station) (task : IoTask) : Option Station := (ioTaskExec task.type).run s task

/-- The task of `evfs_flush`. -/
def flushAllTask : IoTask := ⟨0, 0, 0, 0, none, .flushAll, 0, none⟩

/-- `EINPROGRESS`. -/
def einprogress : Int := 115

/-- The task of `evfs_flush_entry_buffer` on a handle. -/
def flushTask (s : Station) (d : Nat) : IoTask :=
  ⟨einprogress, (s.descriptors d).entryId, 0, 0, none, .flush, 0, some d⟩

/-! ## The threads -/

inductive Act where
  /-- Another thread puts a request in the queue. -/
  | submit (q : Request)
  /-- The thread of the cache executes the next request. -/
  | execute
  /-- The worker goes on in `evfs_entries_flush`. -/
  | work

/-- The next round of the loop of `evfs_entries_flush`, with `evfs_view_flush` and
`evfs_cache_flush_block`, or its end. -/
def work (s : Station) : Option Station :=
  match s.worker with
  | .flushing task e (v :: views) =>
    let s : Station := { s with worker := .flushing task e views }
    some (if s.fs.vol.totalClusterCount ≤ 0 ∨ v ≤ 0 then s else s.push (.task (.flushBuffer v)))
  | .flushing task e [] =>
    (dereferenceHead s.fs e .normal).map fun fs =>
      { s with fs }.finish { task with status := 0 }
  | _ => none

/-- `__evfs_cache_pop_task_until_empty`: one round. -/
def execute (s : Station) : Option Station :=
  match s.merge with
  | [] => none
  | q :: merge =>
    let vol := { s.fs.vol with io := { s.fs.vol.io with cache := s.cache.serve q } }
    some { s with fs := s.fs.setVol vol, merge, executed := s.executed ++ [q] }

def step (s : Station) : Act → Option Station
  | .submit q => some (s.enqueue q)
  | .execute => execute s
  | .work => work s

/-- The flush that comes next is not dropped: there is memory for it, and room in the queue. -/
def Accepted (s : Station) : Prop :=
  match s.worker with
  | .flushing _ _ (_ :: _) => s.fs.alloc.1 = true ∧ s.merge.length < maxPending
  | _ => True

/-- A request that is executed is legal, and no flush is dropped. -/
def Guarded (s : Station) : Act → Prop
  | .submit _ => True
  | .execute => ∀ q ∈ s.merge.head?, q.Legal s.cache
  | .work => Accepted s

def GuardedStep (s : Station) (a : Act) (s' : Station) : Prop := Guarded s a ∧ step s a = some s'

/-! ## The property -/

/-- The flush of a cluster was queued behind all that was in the queue in the first state.  Once it
was executed the cluster is on the disk, until a request is executed that writes to it. -/
def Flushed (s s' : Station) (v : Int) : Prop :=
  ∃ l r, s'.log = s.log ++ l ++ .task (.flushBuffer v) :: r ∧
    ∀ r', s'.executed = s.log ++ l ++ .task (.flushBuffer v) :: r' → (∀ q ∈ r', ¬q.Writes v) →
      s'.cache.Clean v ∧ s'.cache.hard.file[v.toNat]? = s'.cache.content v.toNat

/-- No entry and no descriptor has changed, and no cluster that no request has written to. -/
structure Untouched (s s' : Station) : Prop where
  fs : s'.fs = s.fs.setVol { s.fs.vol with io := s'.fs.vol.io }
  descriptors : s'.descriptors = s.descriptors
  content : ∃ tail, s'.executed = s.executed ++ tail ∧ ∀ i : Nat, 1 ≤ i →
    i < s.cache.hard.file.length → (∀ q ∈ tail, ¬q.Writes i) →
      s'.cache.content i = s.cache.content i

/-! ## What a step leaves alone -/

variable {s s' : Station} {a : Act} {q : Request} {task : IoTask} {e v : Int} {views : List Int}

/-- A request that is put in the queue, or dropped: the queue is all that changes. -/
theorem enqueue_eq (s : Station) (q : Request) :
    ∃ r, s.enqueue q = { s with merge := s.merge ++ r } := by
  rw [Station.enqueue]
  split
  · exact ⟨[q], rfl⟩
  · refine ⟨[], ?_⟩
    rw [List.append_nil]

theorem push_of_accepted (s : Station) (q : Request) (halloc : s.fs.alloc.1 = true)
    (h : s.merge.length < maxPending) :
    s.push q = { s with fs := s.fs.alloc.2, merge := s.merge ++ [q] } := by
  rw [Station.push]
  simp only [halloc, if_true]
  exact if_pos h

/-- What every step has kept since the first state: the queue has grown at its end, the cache is the
one that the requests executed lead to, and no descriptor has changed. -/
structure Carried (s s' : Station) : Prop where
  log : ∃ r, s'.log = s.log ++ r
  served : ∃ tail, s'.executed = s.executed ++ tail ∧ Run Serves s.cache tail s'.cache
  descriptors : s'.descriptors = s.descriptors

theorem Carried.refl (s : Station) : Carried s s :=
  ⟨⟨[], (List.append_nil _).symm⟩, ⟨[], (List.append_nil _).symm, .nil _⟩, rfl⟩

/-- Only the queue has grown, at its end. -/
theorem Carried.append {s₁ : Station} (h : Carried s s₁) (hexecuted : s'.executed = s₁.executed)
    (hcache : s'.cache = s₁.cache) (hdescriptors : s'.descriptors = s₁.descriptors)
    (hmerge : ∃ r, s'.merge = s₁.merge ++ r) : Carried s s' := by
  obtain ⟨r₁, hlog⟩ := h.log
  obtain ⟨tail, hexec, hrun⟩ := h.served
  obtain ⟨r, hmerge⟩ := hmerge
  refine ⟨⟨r₁ ++ r, ?_⟩, ⟨tail, hexecuted.trans hexec, ?_⟩, hdescriptors.trans h.descriptors⟩
  · rw [Station.log, hexecuted, hmerge, ← List.append_assoc, ← List.append_assoc, ← hlog]
    rfl
  · rw [hcache]
    exact hrun

theorem Carried.execute {s₁ : Station} (h : Carried s s₁) (hguard : Guarded s₁ .execute)
    (hstep : execute s₁ = some s') : Carried s s' := by
  obtain ⟨r₁, hlog⟩ := h.log
  obtain ⟨tail, hexec, hrun⟩ := h.served
  rw [Flush.execute] at hstep
  split at hstep
  · cases hstep
  rename_i q merge hmerge
  cases hstep
  have hlegal : q.Legal s₁.cache := hguard q (by rw [hmerge]; rfl)
  refine ⟨⟨r₁, ?_⟩, ⟨tail ++ [q], ?_, hrun.concat ⟨hlegal, rfl⟩⟩, h.descriptors⟩
  · rw [← hlog, Station.log, Station.log, hmerge, List.append_assoc]
    rfl
  · show s₁.executed ++ [q] = _
    rw [hexec, List.append_assoc]

/-! ## The flush of an entry -/

/-- The flush of the cluster is in the queue, or was, behind all that was there before. -/
def Behind (s s' : Station) (v : Int) : Prop :=
  ∃ l r, s'.log = s.log ++ l ++ .task (.flushBuffer v) :: r

theorem Behind.grow {s₁ : Station} (h : Behind s s₁ v) (hlog : ∃ r, s'.log = s₁.log ++ r) :
    Behind s s' v := by
  obtain ⟨l, r, heq⟩ := h
  obtain ⟨r', hlog⟩ := hlog
  refine ⟨l, r ++ r', ?_⟩
  rw [hlog, heq, List.append_assoc _ _ r', List.cons_append]

/-- The counters of a head are `int`s. -/
def Counted (head : Head) : Prop := Lib.InInt32 head.refcnt ∧ Lib.InInt32 head.ioRefcnt

/-- The head with one reference more, for input and output. -/
def referenced (head : Head) : Head :=
  { head with refcnt := int32 (head.refcnt + 1), ioRefcnt := int32 (head.ioRefcnt + 1) }

/-- A counter that has run over is not above zero. -/
theorem int32_succ_of_pos {n : Int} (h : Lib.InInt32 n) (hpos : 0 < int32 (n + 1)) :
    int32 (n + 1) = n + 1 := by
  obtain ⟨hlower, hupper⟩ := h
  rcases Int.lt_or_le (n + 1) (2 ^ 31) with hlt | hge
  · exact Lib.int32_of_inInt32 ⟨by omega, hlt⟩
  · rw [Lib.int32_of_ge hge (by omega)] at hpos
    omega

/-- The managers with another cache. -/
def withIo (fs : Fs) (io : Io) : Fs := fs.setVol { fs.vol with io }

/-- How far the worker has come with the views of the entry. -/
inductive Phase (s : Station) (task : IoTask) (e : Int) (chain : List Int) (s' : Station) : Prop
  /-- It holds a reference, and has queued the flushes of the first views. -/
  | going (passed views : List Int) (hchain : chain = passed ++ views)
      (hworker : s'.worker = .flushing task e views)
      (hfs : s'.fs = withIo (s.fs.setHead e (referenced (s.fs.heads e))) s'.fs.vol.io)
      (hpassed : ∀ v ∈ passed, 1 ≤ v → Behind s s' v)
  /-- It has given the reference back, and has queued all of them. -/
  | done (hworker : s'.worker = .done { task with status := 0 })
      (hfs : s'.fs = withIo s.fs s'.fs.vol.io) (hpassed : ∀ v ∈ chain, 1 ≤ v → Behind s s' v)

/-- The invariant of a flush. -/
structure Going (s : Station) (task : IoTask) (e : Int) (chain : List Int) (s' : Station) :
    Prop where
  carried : Carried s s'
  phase : Phase s task e chain s'

variable {chain : List Int}

/-- A step of another thread leaves the worker where it stands. -/
theorem Phase.others {s₁ : Station} (h : Phase s task e chain s₁)
    (hworker : s'.worker = s₁.worker) (hfs : s'.fs = withIo s₁.fs s'.fs.vol.io)
    (hlog : ∃ r, s'.log = s₁.log ++ r) : Phase s task e chain s' := by
  cases h with
  | going passed views hchain hw hfs₁ hpassed =>
    refine .going passed views hchain (hworker.trans hw) ?_ fun v hv h1 =>
      (hpassed v hv h1).grow hlog
    rw [hfs, hfs₁]
    rfl
  | done hw hfs₁ hpassed =>
    refine .done (hworker.trans hw) ?_ fun v hv h1 => (hpassed v hv h1).grow hlog
    rw [hfs, hfs₁]
    rfl

/-- The reference is given back. -/
theorem dereferenceHead_withIo {fs fs' : Fs} {io : Io} (hstate : (fs.heads e).state = .normal)
    (hcounted : Counted (fs.heads e))
    (heq : dereferenceHead (withIo (fs.setHead e (referenced (fs.heads e))) io) e .normal =
      some fs') : fs' = withIo fs io := by
  have hself : (withIo (fs.setHead e (referenced (fs.heads e))) io).heads e =
      referenced (fs.heads e) := setHead_heads_self fs e _
  rw [dereferenceHead] at heq
  simp only [hself] at heq
  split at heq
  · cases heq
  rename_i hpos
  have hrc : (referenced (fs.heads e)).refcnt = (fs.heads e).refcnt + 1 :=
    int32_succ_of_pos hcounted.1 (Int.not_le.mp fun hle => hpos (.inl hle))
  have hio : (referenced (fs.heads e)).ioRefcnt = (fs.heads e).ioRefcnt + 1 :=
    int32_succ_of_pos hcounted.2 (Int.not_le.mp fun hle => hpos (.inr ⟨trivial, hle⟩))
  have hback : (withIo (fs.setHead e (referenced (fs.heads e))) io).setHead e (fs.heads e) =
      withIo fs io := by
    simp only [withIo, Fs.setHead, Fs.setVol, Function.update_idem, Function.update_eq_self]
  have hhead : ({ referenced (fs.heads e) with
      refcnt := (referenced (fs.heads e)).refcnt - 1
      ioRefcnt := (referenced (fs.heads e)).ioRefcnt - 1 } : Head) = fs.heads e := by
    rw [hrc, hio, Int.add_sub_cancel, Int.add_sub_cancel]
    rfl
  simp only [if_true, reduceCtorEq, false_and, if_false, hhead, hback] at heq
  split at heq
  · rename_i hwait
    have hclose : (fs.heads e).state = .closeWait := hwait.2
    rw [hstate] at hclose
    cases hclose
  · exact (Option.some.inj heq).symm

theorem work_cons (hw : s.worker = .flushing task e (v :: views)) :
    work s = some (if s.fs.vol.totalClusterCount ≤ 0 ∨ v ≤ 0 then
      { s with worker := .flushing task e views }
      else { s with worker := .flushing task e views }.push (.task (.flushBuffer v))) := by
  simp only [work, hw]

theorem work_nil (hw : s.worker = .flushing task e []) :
    work s = (dereferenceHead s.fs e .normal).map fun fs =>
      { s with fs }.finish { task with status := 0 } := by
  simp only [work, hw]

/-- **A flush that finds the queue full is dropped**, and the worker goes on. -/
theorem work_dropped (hw : s.worker = .flushing task e (v :: views))
    (hfull : maxPending ≤ s.merge.length) :
    ∃ s', work s = some s' ∧ s'.worker = .flushing task e views ∧ s'.log = s.log ∧
      s'.cache = s.cache := by
  rw [work_cons hw]
  split
  · exact ⟨_, rfl, rfl, rfl, rfl⟩
  refine ⟨_, rfl, ?_⟩
  rw [Station.push]
  split
  · rw [Station.enqueue, if_neg (Nat.not_lt.mpr hfull)]
    exact ⟨rfl, rfl, rfl⟩
  · exact ⟨rfl, rfl, rfl⟩

/-- One more flush is queued, or the reference is given back. -/
theorem Going.work {s₁ : Station} (h : Going s task e chain s₁)
    (hstate : (s.fs.heads e).state = .normal) (hcounted : Counted (s.fs.heads e))
    (hused : 0 < s.fs.vol.totalClusterCount) (hguard : Accepted s₁) (hstep : work s₁ = some s') :
    Going s task e chain s' := by
  cases h.phase with
  | done hw hfs hpassed =>
    rw [Flush.work, hw] at hstep
    cases hstep
  | going passed views hchain hw hfs hpassed =>
    cases views with
    | nil =>
      rw [work_nil hw] at hstep
      obtain ⟨fs, hfs', rfl⟩ := Option.map_eq_some_iff.mp hstep
      rw [hfs] at hfs'
      obtain rfl := dereferenceHead_withIo hstate hcounted hfs'
      refine ⟨h.carried.append rfl rfl rfl ⟨[], (List.append_nil _).symm⟩, .done rfl rfl ?_⟩
      rw [hchain, List.append_nil]
      exact hpassed
    | cons v views =>
      have htotal : s₁.fs.vol.totalClusterCount = s.fs.vol.totalClusterCount := by
        rw [hfs]
        rfl
      have hchain' : chain = (passed ++ [v]) ++ views := by
        rw [hchain, List.append_assoc]
        rfl
      rw [Accepted, hw] at hguard
      obtain ⟨halloc, hroom⟩ := hguard
      rw [work_cons hw] at hstep
      by_cases hv : v ≤ 0
      · rw [if_pos (.inr hv)] at hstep
        cases hstep
        refine ⟨h.carried.append rfl rfl rfl ⟨[], (List.append_nil _).symm⟩,
          .going _ views hchain' rfl hfs fun w hw h1 => ?_⟩
        rcases List.mem_append.mp hw with hw | hw
        · exact hpassed w hw h1
        · rw [List.mem_singleton.mp hw] at h1
          omega
      · rw [if_neg (by omega)] at hstep
        have hpush : ({ s₁ with worker := .flushing task e views } : Station).push
            (.task (.flushBuffer v)) = _ := push_of_accepted _ _ halloc hroom
        cases (Option.some.inj hstep).symm.trans hpush
        have hlog : s₁.executed ++ (s₁.merge ++ [.task (.flushBuffer v)]) =
            s₁.log ++ [.task (.flushBuffer v)] := (List.append_assoc _ _ _).symm
        refine ⟨h.carried.append rfl rfl rfl ⟨_, rfl⟩, .going _ views hchain' rfl ?_
          fun w hw h1 => ?_⟩
        · show s₁.fs.alloc.2 = _
          rw [hfs]
          rfl
        rcases List.mem_append.mp hw with hw | hw
        · exact (hpassed w hw h1).grow ⟨_, hlog⟩
        · obtain ⟨l, hl⟩ := h.carried.log
          rw [List.mem_singleton.mp hw]
          exact ⟨l, [], by rw [← hl]; exact hlog⟩

/-- **One step** while the worker flushes the entry. -/
theorem Going.step {s₁ : Station} (h : Going s task e chain s₁)
    (hstate : (s.fs.heads e).state = .normal) (hcounted : Counted (s.fs.heads e))
    (hused : 0 < s.fs.vol.totalClusterCount) (hstep : GuardedStep s₁ a s') :
    Going s task e chain s' := by
  obtain ⟨hguard, hstep⟩ := hstep
  cases a with
  | submit q =>
    obtain ⟨r, heq⟩ := enqueue_eq s₁ q
    obtain rfl : s' = { s₁ with merge := s₁.merge ++ r } :=
      (Option.some.inj hstep).symm.trans heq
    refine ⟨h.carried.append rfl rfl rfl ⟨r, rfl⟩, h.phase.others rfl rfl ⟨r, ?_⟩⟩
    rw [Station.log, Station.log, List.append_assoc]
  | execute =>
    refine ⟨h.carried.execute hguard hstep, ?_⟩
    change execute s₁ = some s' at hstep
    rw [Flush.execute] at hstep
    split at hstep
    · cases hstep
    rename_i q merge hmerge
    cases hstep
    refine h.phase.others rfl rfl ⟨[], ?_⟩
    rw [Station.log, Station.log, hmerge, List.append_nil, List.append_assoc]
    rfl
  | work => exact h.work hstate hcounted hused hguard hstep

/-! ## The two flushes -/

/-- A cluster whose flush was queued. -/
theorem Going.flushed (h : Going s task e chain s') {u : List (List UInt8)}
    (hu : Serving s.cache u) (hv : 1 ≤ v) (hbehind : Behind s s' v) : Flushed s s' v := by
  obtain ⟨l, r, hlog⟩ := hbehind
  obtain ⟨tail, hexec, hrun⟩ := h.carried.served
  obtain ⟨u', hu', -⟩ := serving_of_run hrun hu
  refine ⟨l, r, hlog, fun r' hexec' hno => ?_⟩
  have htail : tail = (s.merge ++ l) ++ .task (.flushBuffer v) :: r' := by
    rw [hexec, Station.log, List.append_assoc, List.append_assoc] at hexec'
    rw [List.append_assoc]
    exact List.append_cancel_left hexec'
  rw [htail] at hrun
  have hclean := clean_of_run hu hrun hno
  refine ⟨hclean, hu'.sim.disk_of_clean ?_⟩
  rw [Int.toNat_of_nonneg (by omega)]
  exact hclean

theorem Carried.content (h : Carried s s') {u : List (List UInt8)} (hu : Serving s.cache u) :
    ∃ tail, s'.executed = s.executed ++ tail ∧ ∀ i : Nat, 1 ≤ i →
      i < s.cache.hard.file.length → (∀ q ∈ tail, ¬q.Writes i) →
        s'.cache.content i = s.cache.content i := by
  obtain ⟨tail, hexec, hrun⟩ := h.served
  obtain ⟨u', hu', -, hsame⟩ := serving_of_run hrun hu
  refine ⟨tail, hexec, fun i hi hlt hno => ?_⟩
  rw [hu'.sim.content_eq, hu.sim.content_eq]
  exact hsame i hi (by rw [hu.sim.length]; exact hlt) hno

/-- The state after a reference for input and output was taken. -/
theorem referenceHead_ok {fs : Fs} {id : Int} (h : (referenceHead fs id .normal).1 = .ok e) :
    (fs.heads e).state = .normal ∧
      (referenceHead fs id .normal).2 = fs.setHead e (referenced (fs.heads e)) := by
  rw [referenceHead] at h ⊢
  cases hsearch : searchHead fs id with
  | none =>
    rw [hsearch] at h
    cases h
  | some w =>
    simp only [hsearch] at h ⊢
    by_cases hstate : (fs.heads w).state = .normal
    · have hcheck : checkReferenceCondition fs w .normal =
          (0, fs.setHead w (referenced (fs.heads w))) := if_neg (not_not_intro hstate)
      rw [hcheck] at h ⊢
      cases h
      exact ⟨hstate, rfl⟩
    · have hcheck : checkReferenceCondition fs w .normal = (eAcces, fs) := if_pos hstate
      rw [hcheck] at h
      cases h

/-- Where the handler of an entry starts to flush. -/
theorem handle_flush {d : Nat} {chain : List Int}
    (hhandle : handle s (flushTask s d) = some s') (hw : s'.worker = .flushing task e chain) :
    task = flushTask s d ∧ (s.fs.heads e).state = .normal ∧
      chain = (s.fs.heads e).elements ++ [e] ∧ Going s task e chain s' := by
  change flushEntryBuffer s (flushTask s d) = some s' at hhandle
  rw [flushEntryBuffer] at hhandle
  split at hhandle
  · cases hhandle
    cases hw
  rename_i id hok
  obtain ⟨hstate, heq⟩ := referenceHead_ok hok
  rw [heq] at hhandle
  cases hhandle
  cases hw
  have helements : ((s.fs.setHead e (referenced (s.fs.heads e))).heads e).elements =
      (s.fs.heads e).elements := by
    rw [setHead_heads_self]
    rfl
  refine ⟨rfl, hstate, by rw [helements], (Carried.refl s).append rfl rfl rfl
    ⟨[], (List.append_nil _).symm⟩, .going [] _ rfl rfl rfl fun v hv => ?_⟩
  cases hv

/-- **A flush reaches the disk.**  For every cache that requests on a file lead to, whatever is in
its queue, in the managers and in the descriptors (a counter of references is an `int`):

* `evfs_flush` changes nothing and queues nothing, so that what was dirty is clean after it exactly
  if no cluster was dirty;
* `evfs_flush_entry_buffer` on a handle whose entry it gets a reference to brings every cluster of
  the entry to the disk, in every order of what it and all other threads do in which none of its
  flushes is dropped, and changes nothing else. -/
theorem flush_reaches_disk {garbage : Nat → List UInt8} {h : Hard} (hh : Consistent h) {n : Nat}
    {served : List Request} (hreach : Run Serves (cacheInit garbage h n) served s.cache)
    (hused : 0 < s.fs.vol.totalClusterCount) (hcounted : ∀ e, Counted (s.fs.heads e)) :
    (handle s flushAllTask = some (s.finish { flushAllTask with retval := eInval }) ∧
      ((∀ v, ¬s.cache.Clean v → (s.finish { flushAllTask with retval := eInval }).cache.Clean v) ↔
        ∀ v, s.cache.Clean v)) ∧
    ∀ (d : Nat) (s₁ : Station) (task : IoTask) (e : Int) (chain : List Int),
      handle s (flushTask s d) = some s₁ → s₁.worker = .flushing task e chain →
      chain = (s.fs.heads e).elements ++ [e] ∧
      ∀ (acts : List Act) (s' : Station) (task' : IoTask), Run GuardedStep s₁ acts s' →
        s'.worker = .done task' → task' = { flushTask s d with status := 0 } ∧ Untouched s s' ∧
          ∀ v ∈ chain, 1 ≤ v → Flushed s s' v := by
  obtain ⟨u, hu, -⟩ := serving_of_run hreach (serving_cacheInit hh garbage n)
  refine ⟨⟨rfl, fun hclean v => ?_, fun hclean v hno => absurd (hclean v) hno⟩, ?_⟩
  · by_contra hno
    exact hno (hclean v hno)
  intro d s₁ task e chain hhandle hw
  obtain ⟨rfl, hstate, hchain, hgoing⟩ := handle_flush hhandle hw
  refine ⟨hchain, fun acts s' task' hrun hdone => ?_⟩
  have h := hrun.invariant (fun _ _ _ hi hs => Going.step hi hstate (hcounted e) hused hs) hgoing
  cases h.phase with
  | going passed views _ hw' _ _ =>
    rw [hw'] at hdone
    cases hdone
  | done hw' hfs hpassed =>
    rw [hw'] at hdone
    cases hdone
    exact ⟨rfl, ⟨hfs, h.carried.descriptors, h.carried.content hu⟩,
      fun v hv h1 => h.flushed hu h1 (hpassed v hv h1)⟩

/-! ## Runs on fixed inputs -/

instance (clusterSize clusterCount : Nat) : ∀ t : Task, Decidable (t.Legal clusterSize clusterCount)
  | .read .. | .write .. | .flushBuffer _ => inferInstanceAs (Decidable (_ ∧ _))
  | .flushBufferAll => instDecidableTrue

instance (c : Cache) : ∀ q : Request, Decidable (q.Legal c)
  | .task t => inferInstanceAs (Decidable (t.Legal _ _))
  | .expand => inferInstanceAs (Decidable (_ ≤ _))

instance (s : Station) : Decidable (Accepted s) :=
  match hw : s.worker with
  | .flushing _ _ (_ :: _) =>
    decidable_of_iff (s.fs.alloc.1 = true ∧ s.merge.length < maxPending) (by rw [Accepted, hw])
  | .flushing _ _ [] => isTrue (by rw [Accepted, hw]; trivial)
  | .idle => isTrue (by rw [Accepted, hw]; trivial)
  | .done _ => isTrue (by rw [Accepted, hw]; trivial)

instance (s : Station) : ∀ a : Act, Decidable (Guarded s a)
  | .submit _ => instDecidableTrue
  | .execute => inferInstanceAs (Decidable (∀ q ∈ s.merge.head?, q.Legal s.cache))
  | .work => inferInstanceAs (Decidable (Accepted s))

def guardedStep (s : Station) (a : Act) : Option Station :=
  if Guarded s a then step s a else none

theorem guardedStep_spec (s : Station) (a : Act) (s' : Station) (h : guardedStep s a = some s') :
    GuardedStep s a s' := by
  rw [guardedStep] at h
  split at h
  · exact ⟨‹_›, h⟩
  · cases h

/-- The entry that is flushed, and the views to come. -/
def Worker.toCome : Worker → Option (Int × List Int)
  | .flushing _ e views => some (e, views)
  | _ => none

def Worker.isDone : Worker → Bool
  | .done _ => true
  | _ => false

theorem Worker.eq_flushing {w : Worker} (h : w.toCome = some (e, views)) :
    ∃ task, w = .flushing task e views := by
  cases w with
  | flushing task e views =>
    cases h
    exact ⟨task, rfl⟩
  | _ => cases h

theorem Worker.eq_done {w : Worker} (h : w.isDone = true) : ∃ task, w = .done task := by
  cases w with
  | done task => exact ⟨task, rfl⟩
  | _ => cases h

/-- A file of four clusters. -/
def fourClusters : Hard :=
  ⟨firstCluster 64 4 4 :: List.replicate 3 (zeroCluster 64), 64, 4, 4, 256, [], []⟩

theorem consistent_fourClusters : Consistent fourClusters where
  wf := ⟨by decide, by decide, by decide, rfl, rfl⟩
  geometry := ⟨by decide, by decide, by decide, by decide, by decide, by decide⟩
  count := rfl

/-- The entry 1 has the clusters 1 and 2.  The second is dirty, and a write to the first is in the
queue. -/
def twoDirty : Station where
  fs := { Fs.init with
    vol := { Fs.init.vol with
      io := ⟨(cacheInit (fun _ => []) fourClusters 2).serve (.task (.write 2 [7] 40)), [], false⟩
      totalClusterCount := 4 }
    heads := fun _ => ⟨[2], 1, 1, 0, .normal, false, []⟩
    entries := [1]
    rootOfEntriesTree := Avl.avlinsert compareEntryHead .nil 1
    countOfEntries := 1 }
  descriptors := fun _ => ⟨1, 5⟩
  merge := [.task (.write 1 [9] 40)]
  executed := []
  worker := .idle

/-- Both clusters get to the disk, while another thread reads. -/
theorem flush_reaches_disk_example : ∃ s₁ s', handle twoDirty (flushTask twoDirty 0) = some s₁ ∧
    Run GuardedStep s₁ [.work, .submit (.task (.read 1 40 1)), .execute, .work, .work, .execute,
      .execute, .execute] s' ∧ s'.merge.length = 0 ∧ Untouched twoDirty s' ∧
    Flushed twoDirty s' 2 ∧ Flushed twoDirty s' 1 := by
  have hserves : Serves (cacheInit (fun _ => []) fourClusters 2) (.task (.write 2 [7] 40))
      twoDirty.cache := ⟨by decide, rfl⟩
  have hcounted : ∀ e, Counted (twoDirty.fs.heads e) := fun _ =>
    ⟨show Lib.InInt32 1 by decide, show Lib.InInt32 0 by decide⟩
  obtain ⟨-, h⟩ := flush_reaches_disk consistent_fourClusters (.cons hserves (.nil _)) (by decide)
    hcounted
  have hrun : ((handle twoDirty (flushTask twoDirty 0)).bind fun s₁ =>
      (Lib.exec guardedStep s₁ [.work, .submit (.task (.read 1 40 1)), .execute, .work, .work,
        .execute, .execute, .execute]).map fun s' =>
          (s₁.worker.toCome, s'.worker.isDone, s'.merge.length)) =
      some (some (1, [2, 1]), true, 0) := by
    decide +kernel
  obtain ⟨s₁, hhandle, hrun⟩ := Option.bind_eq_some_iff.mp hrun
  obtain ⟨s', hexec, heq⟩ := Option.map_eq_some_iff.mp hrun
  simp only [Prod.mk.injEq] at heq
  obtain ⟨hviews, hdone, hempty⟩ := heq
  obtain ⟨task, hw⟩ := Worker.eq_flushing hviews
  obtain ⟨task', hw'⟩ := Worker.eq_done hdone
  have hacts := Run.of_exec guardedStep_spec hexec
  obtain ⟨-, huntouched, hflushed⟩ := (h 0 s₁ task 1 [2, 1] hhandle hw).2 _ s' task' hacts hw'
  exact ⟨s₁, s', hhandle, hacts, hempty, huntouched, hflushed 2 (by decide) (by decide),
    hflushed 1 (by decide) (by decide)⟩

/-- A new entry is dirty in the cache.  `evfs_flush` queues nothing, and leaves it so. -/
theorem flush_reaches_no_disk : ∃ fs fs' s,
    evfsCreate ⟨fun _ => [], fun _ => .zero, .zero, fun _ => none⟩ Fs.init 64 4 2 [] [] [] =
      some (0, fs) ∧
    createOne fs (some [65]) = some (0, 1, fs') ∧
    handle ⟨fs', fun _ => ⟨0, 0⟩, [], [], .idle⟩ flushAllTask = some s ∧ s.log = [] ∧
    ¬fs'.vol.io.cache.Clean 1 ∧ ¬s.cache.Clean 1 ∧
    s.cache.hard.file[1]? ≠ s.cache.content 1 := by
  have hrun : ((evfsCreate ⟨fun _ => [], fun _ => .zero, .zero, fun _ => none⟩ Fs.init 64 4 2 [] []
      []).bind fun r => (createOne r.2 (some [65])).map fun q => (r.1, q.1, q.2.1,
        decide (q.2.2.vol.io.cache.Clean 1),
        decide (q.2.2.vol.io.cache.hard.file[1]? = q.2.2.vol.io.cache.content 1))) =
      some (0, 0, 1, false, false) := by
    decide +kernel
  obtain ⟨⟨status, fs⟩, hcreate, hrun⟩ := Option.bind_eq_some_iff.mp hrun
  obtain ⟨⟨result, e, fs'⟩, hnew, heq⟩ := Option.map_eq_some_iff.mp hrun
  simp only [Prod.mk.injEq, decide_eq_false_iff_not] at heq
  obtain ⟨rfl, rfl, rfl, hdirty, hdisk⟩ := heq
  exact ⟨fs, fs', _, hcreate, hnew, rfl, rfl, hdirty, hdirty, hdisk⟩

end Flush

end Evfs

end LibNax
