import LibNax.Lib.Pool
import LibNax.Lib.Run

/-!
# Handing a task to the worker

`__evfs_cache_push_task_and_notify_run` and `__evfs_io_push_task_and_notify_run` put a task in the
queue of a worker, initialise the event of the task, and awaken the worker; the submitter then waits
for the event.  The worker takes the tasks out of the queue, executes them, and awakens their
events.  A task that nobody waits for (`no_wait`) is freed by the worker, any other by its submitter.

The task is in the queue before its event is initialised, and the initialisation takes back what the
worker has signalled.  The submitter also reads `no_wait` after the task is in the queue, twice, and
the worker may have freed a `no_wait` task by then.  At last, the event of a task is of the kind that
is waited for with a single `pthread_cond_wait`, which may return without a reason; the submitter
then frees a task that the worker still has.

* `State`, `Act` and `step` — the submitters and the worker.  What is done under one lock is one
  step, and so is a read of the flag outside of it.  `fault` is set where a freed task is used.
* `Guarded` — the worker is done with a task only when its submitter has come far enough, and a
  submitter does not leave its wait before.
* `Kept` — a submitter whose task is complete never sleeps, and the worker does not sleep over a
  queue.
* `Submitter.Good` and `Inv` — the invariant: a task that is pending is neither complete nor freed.
* `handOff_kept` — every run that is guarded.

The shutdown of the worker is not part of this file.
-/

set_option autoImplicit false

namespace LibNax

namespace Evfs

namespace Tasks

open Lib (Run)

/-! ## The threads -/

/-- Where a submitter stands. -/
inductive Pc where
  /-- Before the task is put in the queue. -/
  | enqueue
  /-- Before the flag `no_wait` of the task is read for the first time. -/
  | flag
  /-- Before `lwp_event_init` of the event of the task. -/
  | init
  /-- Before `lwp_event_awaken` of the event of the worker. -/
  | awaken
  /-- Before the flag is read for the second time. -/
  | check
  /-- Before `lwp_event_wait`. -/
  | wait
  /-- In `pthread_cond_wait`. -/
  | asleep
  /-- Before the task is freed. -/
  | finish
  /-- Returned. -/
  | done
  deriving Repr, DecidableEq

/-- A submitter with its task.  The flag `no_wait` is the one that it has set before. -/
structure Submitter where
  pc : Pc
  noWait : Bool
  /-- `task->cond.pass_`. -/
  pass : Bool
  /-- The worker is done with the task. -/
  completed : Bool
  /-- The memory of the task was freed. -/
  freed : Bool
  deriving Repr, DecidableEq

/-- Where the worker stands.  A task is the number of its submitter. -/
inductive WorkerPc where
  /-- Before `lwp_event_wait`. -/
  | wait
  /-- In `pthread_cond_wait` or `pthread_cond_timedwait`. -/
  | asleep
  /-- Before `lwp_event_block`. -/
  | block
  /-- Before it looks at the queue. -/
  | pop
  /-- Before the task is executed. -/
  | exec (task : Nat)
  /-- Before `lwp_event_awaken` of the event of the task, or before the task is freed. -/
  | notify (task : Nat)
  deriving Repr, DecidableEq

/-- The queue with its count, the event of the worker, and the threads. -/
structure State where
  queue : List Nat
  count : Int
  pass : Bool
  worker : WorkerPc
  submitters : List Submitter
  fault : Bool
  deriving Repr, DecidableEq

/-- A new submitter, the next step of one, and the steps of the worker: also that its wait runs out
of time.  A wait of the worker or of a submitter may return without a reason. -/
inductive Act where
  | submit (noWait : Bool)
  | step (i : Nat)
  | worker
  | timeout
  | spurious
  | wake (i : Nat)
  deriving Repr, DecidableEq

/-- `lwp_event_awaken` of the event of the worker. -/
def State.awaken (s : State) : State :=
  { s with pass := true, worker := if s.worker = .asleep then .block else s.worker }

/-- The submitter changes. -/
def State.put (s : State) (i : Nat) (sub : Submitter) : State :=
  { s with submitters := s.submitters.set i sub }

/-- The memory of a task is used, by its submitter or by the worker. -/
def State.uses (s : State) (sub : Submitter) : State := { s with fault := s.fault || sub.freed }

/-- The next step of a submitter. -/
def submitterStep (maxPending : Int) (s : State) (i : Nat) (sub : Submitter) : Option State :=
  match sub.pc with
  | .enqueue =>
    if s.count ≥ maxPending then some (s.put i { sub with pc := .done })
    else some { s.put i { sub with pc := .flag } with
      queue := s.queue ++ [i], count := s.count + 1 }
  | .flag => some ((s.uses sub).put i { sub with pc := if sub.noWait then .awaken else .init })
  | .init => some ((s.uses sub).put i { sub with pc := .awaken, pass := false })
  | .awaken => some (s.put i { sub with pc := .check }).awaken
  | .check => some ((s.uses sub).put i { sub with pc := if sub.noWait then .done else .wait })
  | .wait => some ((s.uses sub).put i { sub with pc := if sub.pass then .finish else .asleep })
  | .asleep => none
  | .finish => some ((s.uses sub).put i { sub with pc := .done, freed := true })
  | .done => none

/-- The worker is done with the task: it is freed, or `lwp_event_awaken` of its event. -/
def Submitter.notified (sub : Submitter) : Submitter :=
  if sub.noWait then { sub with completed := true, freed := true }
  else { sub with
    pc := if sub.pc = .asleep then .finish else sub.pc, pass := true, completed := true }

/-- The next step of the worker. -/
def workerStep (s : State) : Option State :=
  match s.worker with
  | .wait => some { s with worker := if s.pass then .block else .asleep }
  | .asleep => none
  | .block => some { s with pass := false, worker := .pop }
  | .pop =>
    match s.queue with
    | [] => some { s with worker := .wait }
    | task :: queue => s.submitters[task]?.map fun sub =>
        { s.uses sub with queue, count := s.count - 1, worker := .exec task }
  | .exec task => s.submitters[task]?.map fun sub => { s.uses sub with worker := .notify task }
  | .notify task => s.submitters[task]?.map fun sub =>
      { (s.uses sub).put task sub.notified with worker := .pop }

/-- A step. -/
def step (maxPending : Int) (s : State) : Act → Option State
  | .submit noWait => some { s with
      submitters := s.submitters ++ [⟨.enqueue, noWait, false, false, false⟩] }
  | .step i => s.submitters[i]?.bind (submitterStep maxPending s i)
  | .worker => workerStep s
  | .timeout => if s.worker = .asleep then some { s with worker := .wait } else none
  | .spurious => if s.worker = .asleep then some { s with worker := .block } else none
  | .wake i => s.submitters[i]?.bind fun sub =>
      if sub.pc = .asleep then some (s.put i { sub with pc := .finish }) else none

/-- A step, as a relation. -/
def Step (maxPending : Int) (s : State) (a : Act) (s' : State) : Prop :=
    step maxPending s a = some s'

/-- The worker has been started. -/
def init : State := ⟨[], 0, false, .wait, [], false⟩

/-! ## What is asked -/

/-- The submitter is going to awaken the worker. -/
def Pc.Awakens (pc : Pc) : Prop := pc = .flag ∨ pc = .init ∨ pc = .awaken

instance (pc : Pc) : Decidable pc.Awakens := inferInstanceAs (Decidable (_ ∨ _ ∨ _))

/-- The worker may be done with the task: a task that is not waited for is not read any more, and the
event of any other has been initialised. -/
def Submitter.Ready (sub : Submitter) : Prop :=
  if sub.noWait then sub.pc = .done else sub.pc ≠ .flag ∧ sub.pc ≠ .init

/-- The worker is done with a task only when its submitter is ready for it, and a submitter leaves
its wait only when the task is complete. -/
def Guarded (s : State) : Act → Prop
  | .worker => ∀ task, s.worker = .notify task → ∀ sub, s.submitters[task]? = some sub → sub.Ready
  | .wake i => ∀ sub, s.submitters[i]? = some sub → sub.completed = true
  | _ => True

/-- A step in which nobody is too early. -/
def GuardedStep (maxPending : Int) (s : State) (a : Act) (s' : State) : Prop :=
  Guarded s a ∧ Step maxPending s a s'

/-- What is asked of the hand-off. -/
structure Kept (maxPending : Int) (s : State) : Prop where
  /-- Nobody uses a task that was freed. -/
  fault : s.fault = false
  /-- A submitter whose task is complete does not sleep, now and in all that can follow. -/
  completion : ∀ (i : Nat) (sub : Submitter), s.submitters[i]? = some sub → sub.noWait = false →
    sub.completed = true → ∀ (acts : List Act) (s' : State), Run (Step maxPending) s acts s' →
      ∀ sub' : Submitter, s'.submitters[i]? = some sub' → sub'.pc ≠ .asleep
  /-- The worker waits over a queue only when someone is going to awaken it. -/
  queue : s.queue ≠ [] → s.worker = .wait ∨ s.worker = .asleep → s.pass = false →
    ∃ sub ∈ s.submitters, sub.pc.Awakens

/-! ## A task that is complete -/

/-- The event is set and the submitter has not come to wait for it, or has seen it. -/
def Submitter.Released (sub : Submitter) : Prop :=
  sub.pass = true ∧
    (sub.pc = .awaken ∨ sub.pc = .check ∨ sub.pc = .wait ∨ sub.pc = .finish ∨ sub.pc = .done)

section Completion

variable {maxPending : Int} {s s' : State} {i : Nat} {sub : Submitter} {a : Act}

theorem getElem?_set {b : Submitter} {j : Nat} (h : s.submitters[i]? = some sub) :
    (s.submitters.set j b)[i]? = if j = i then some b else some sub := by
  obtain ⟨hlt, -⟩ := List.getElem?_eq_some_iff.mp h
  rw [List.getElem?_set]
  split
  · rename_i heq
    subst heq
    rw [if_pos hlt]
  · exact h

theorem Submitter.Released.ne_asleep (h : sub.Released) : sub.pc ≠ .asleep := by
  intro hasleep
  have hpc := h.2
  rw [hasleep] at hpc
  rcases hpc with hpc | hpc | hpc | hpc | hpc <;> cases hpc

theorem Submitter.Released.notified (h : sub.Released) (hwait : sub.noWait = false) :
    sub.notified.Released ∧ sub.notified.noWait = false := by
  rw [Submitter.notified, hwait, if_neg Bool.false_ne_true, if_neg h.ne_asleep]
  exact ⟨⟨rfl, h.2⟩, rfl⟩

/-- The next step of a submitter whose event is set. -/
theorem Submitter.Released.submitterStep (h : sub.Released) (hwait : sub.noWait = false)
    (hstep : submitterStep maxPending s i sub = some s') :
    ∃ sub', s'.submitters = s.submitters.set i sub' ∧ sub'.Released ∧ sub'.noWait = false := by
  obtain ⟨hpass, hpc⟩ := h
  rw [Tasks.submitterStep] at hstep
  rcases hpc with hpc | hpc | hpc | hpc | hpc
  · rw [hpc] at hstep
    cases hstep
    exact ⟨_, rfl, ⟨hpass, .inr (.inl rfl)⟩, hwait⟩
  · rw [hpc] at hstep
    cases hstep
    refine ⟨_, rfl, ⟨hpass, .inr (.inr (.inl ?_))⟩, hwait⟩
    rw [hwait, if_neg Bool.false_ne_true]
  · rw [hpc] at hstep
    cases hstep
    refine ⟨_, rfl, ⟨hpass, .inr (.inr (.inr (.inl ?_)))⟩, hwait⟩
    rw [if_pos hpass]
  · rw [hpc] at hstep
    cases hstep
    exact ⟨_, rfl, ⟨hpass, .inr (.inr (.inr (.inr rfl)))⟩, hwait⟩
  · rw [hpc] at hstep
    cases hstep

/-- What a step does to the submitters. -/
inductive Change (maxPending : Int) (s : State) : Act → State → Prop where
  | submit (noWait : Bool) (s' : State)
      (hset : s'.submitters = s.submitters ++ [⟨.enqueue, noWait, false, false, false⟩]) :
      Change maxPending s (.submit noWait) s'
  | step (i : Nat) (sub : Submitter) (s' : State) (hi : s.submitters[i]? = some sub)
      (hstep : submitterStep maxPending s i sub = some s') : Change maxPending s (.step i) s'
  | notify (task : Nat) (sub : Submitter) (hworker : s.worker = .notify task)
      (hi : s.submitters[task]? = some sub) : Change maxPending s .worker
        { (s.uses sub).put task sub.notified with worker := .pop }
  | wake (i : Nat) (sub : Submitter) (hi : s.submitters[i]? = some sub)
      (hpc : sub.pc = .asleep) :
      Change maxPending s (.wake i) (s.put i { sub with pc := .finish })
  | none (a : Act) (s' : State) (hset : s'.submitters = s.submitters)
      (hworker : a = .worker ∨ a = .timeout ∨ a = .spurious) : Change maxPending s a s'

theorem Step.change (h : Step maxPending s a s') : Change maxPending s a s' := by
  cases a with
  | submit noWait =>
    cases h
    exact .submit noWait _ rfl
  | step i =>
    obtain ⟨sub, hi, hsub⟩ := Option.bind_eq_some_iff.mp h
    exact .step i sub s' hi hsub
  | worker =>
    simp only [Step, Tasks.step, workerStep] at h
    split at h
    · cases h
      exact .none _ _ rfl (.inl rfl)
    · cases h
    · cases h
      exact .none _ _ rfl (.inl rfl)
    · split at h
      · cases h
        exact .none _ _ rfl (.inl rfl)
      · obtain ⟨sub, hi, rfl⟩ := Option.map_eq_some_iff.mp h
        exact .none _ _ rfl (.inl rfl)
    · obtain ⟨sub, hi, rfl⟩ := Option.map_eq_some_iff.mp h
      exact .none _ _ rfl (.inl rfl)
    · rename_i task hworker
      obtain ⟨sub, hi, rfl⟩ := Option.map_eq_some_iff.mp h
      exact .notify task sub hworker hi
  | timeout =>
    simp only [Step, Tasks.step] at h
    split at h
    · cases h
      exact .none _ _ rfl (.inr (.inl rfl))
    · cases h
  | spurious =>
    simp only [Step, Tasks.step] at h
    split at h
    · cases h
      exact .none _ _ rfl (.inr (.inr rfl))
    · cases h
  | wake i =>
    obtain ⟨sub, hi, hsub⟩ := Option.bind_eq_some_iff.mp h
    split at hsub
    · rename_i hpc
      cases hsub
      exact .wake i sub hi hpc
    · cases hsub

/-- The steps of a submitter change only this one. -/
theorem submitters_submitterStep {b : Submitter}
    (h : submitterStep maxPending s i b = some s') :
    ∃ b', s'.submitters = s.submitters.set i b' := by
  rw [submitterStep] at h
  split at h
  · split at h <;> cases h <;> exact ⟨_, rfl⟩
  all_goals cases h
  all_goals exact ⟨_, rfl⟩

/-- A submitter whose event is set is not put to sleep by any step. -/
theorem released_step
    (hi : ∃ sub, s.submitters[i]? = some sub ∧ sub.Released ∧ sub.noWait = false)
    (h : Step maxPending s a s') :
    ∃ sub, s'.submitters[i]? = some sub ∧ sub.Released ∧ sub.noWait = false := by
  obtain ⟨sub, hi, hreleased, hwait⟩ := hi
  cases h.change with
  | submit noWait _ hset =>
    refine ⟨sub, ?_, hreleased, hwait⟩
    rw [hset, List.getElem?_append_left (List.getElem?_eq_some_iff.mp hi).1]
    exact hi
  | step j b _ hj hstep =>
    by_cases hji : j = i
    · subst hji
      cases hi.symm.trans hj
      obtain ⟨sub', heq, hreleased', hwait'⟩ := hreleased.submitterStep hwait hstep
      refine ⟨sub', ?_, hreleased', hwait'⟩
      rw [heq, getElem?_set hi, if_pos rfl]
    · obtain ⟨b', heq⟩ := submitters_submitterStep hstep
      refine ⟨sub, ?_, hreleased, hwait⟩
      rw [heq, getElem?_set hi, if_neg hji]
  | notify task b hworker hj =>
    by_cases hji : task = i
    · subst hji
      cases hi.symm.trans hj
      refine ⟨sub.notified, ?_, hreleased.notified hwait⟩
      exact (getElem?_set hi).trans (if_pos rfl)
    · refine ⟨sub, ?_, hreleased, hwait⟩
      exact (getElem?_set hi).trans (if_neg hji)
  | wake j b hj hpc =>
    have hji : j ≠ i := by
      rintro rfl
      cases hi.symm.trans hj
      exact hreleased.ne_asleep hpc
    refine ⟨sub, ?_, hreleased, hwait⟩
    exact (getElem?_set hi).trans (if_neg hji)
  | none _ _ hset _ =>
    rw [hset]
    exact ⟨sub, hi, hreleased, hwait⟩

end Completion

/-! ## The invariant -/

/-- The task in the hands of the worker. -/
def WorkerPc.tasks : WorkerPc → List Nat
  | .exec task => [task]
  | .notify task => [task]
  | _ => []

/-- The tasks that the worker is not done with. -/
def State.pending (s : State) : List Nat := s.worker.tasks ++ s.queue

/-- The worker is not up. -/
def State.Waits (s : State) : Prop := s.worker = .wait ∨ s.worker = .asleep

/-- What a submitter knows by the place where it stands. -/
structure Submitter.Good (sub : Submitter) : Prop where
  fresh : sub.pc = .enqueue → sub.completed = false
  freed : sub.freed = true → sub.pc = .done
  passed : sub.pass = true → sub.completed = true
  finish : sub.pc = .finish → sub.completed = true
  released : sub.noWait = false → sub.completed = true → sub.Released

/-- The task of the submitter is in the queue or in the hands of the worker. -/
structure Submitter.Queued (sub : Submitter) : Prop where
  pc : sub.pc ≠ .enqueue
  completed : sub.completed = false
  freed : sub.freed = false

structure Inv (s : State) : Prop where
  fault : s.fault = false
  once : s.pending.Nodup
  pending : ∀ i ∈ s.pending, ∃ sub, s.submitters[i]? = some sub ∧ sub.Queued
  good : ∀ sub ∈ s.submitters, sub.Good
  queue : s.queue ≠ [] → s.Waits → s.pass = true ∨ ∃ sub ∈ s.submitters, sub.pc.Awakens

theorem inv_init : Inv init where
  fault := rfl
  once := List.nodup_nil
  pending := fun i hi => by cases hi
  good := fun sub hsub => by cases hsub
  queue := fun hne => absurd rfl hne

section Steps

variable {maxPending : Int} {s s' : State} {i : Nat} {sub b : Submitter} {a : Act}

/-- A submitter that has something to do has not freed its task. -/
theorem Submitter.Good.not_freed (h : sub.Good) (hpc : sub.pc ≠ .done) : sub.freed = false := by
  cases hfreed : sub.freed with
  | false => rfl
  | true => exact absurd (h.freed hfreed) hpc

/-- A submitter that has not got so far is not complete. -/
theorem Submitter.Good.not_completed (h : sub.Good) (hwait : sub.noWait = false)
    (hpc : sub.pc = .flag ∨ sub.pc = .init ∨ sub.pc = .asleep) : sub.completed = false := by
  cases hdone : sub.completed with
  | false => rfl
  | true =>
    obtain ⟨-, hpc'⟩ := h.released hwait hdone
    rcases hpc with hpc | hpc | hpc <;> rw [hpc] at hpc' <;>
      rcases hpc' with hpc' | hpc' | hpc' | hpc' | hpc' <;> cases hpc'

theorem State.fault_uses (s : State) (sub : Submitter) :
    (s.uses sub).fault = (s.fault || sub.freed) := rfl

/-- Every submitter but one stays where it is. -/
theorem Inv.put (h : Inv s) (hi : s.submitters[i]? = some sub)
    (hset : s'.submitters = s.submitters.set i b) (hfault : s'.fault = false)
    (honce : s'.pending.Nodup) (hold : ∀ j ∈ s'.pending, j = i ∨ j ∈ s.pending)
    (hmine : i ∈ s'.pending → b.Queued) (hgood : b.Good)
    (hqueue : s'.queue ≠ [] → s'.Waits → s'.pass = true ∨ b.pc.Awakens ∨
      (¬sub.pc.Awakens ∧ s.queue ≠ [] ∧ s.Waits ∧ s'.pass = s.pass)) : Inv s' := by
  refine ⟨hfault, honce, ?_, ?_, ?_⟩
  · intro j hj
    rw [hset]
    by_cases hji : i = j
    · subst hji
      exact ⟨b, by rw [getElem?_set hi, if_pos rfl], hmine hj⟩
    · obtain ⟨c, hc, hqueued⟩ := h.pending j ((hold j hj).resolve_left (Ne.symm hji))
      exact ⟨c, by rw [getElem?_set hc, if_neg hji], hqueued⟩
  · rw [hset]
    exact Lib.forall_set h.good hgood
  · intro hne hwaits
    rcases hqueue hne hwaits with hpass | hawakens | ⟨hno, hold, hwaits', hpass⟩
    · exact .inl hpass
    · refine .inr ⟨b, ?_, hawakens⟩
      rw [hset]
      exact List.mem_set (List.getElem?_eq_some_iff.mp hi).1 b
    · rcases h.queue hold hwaits' with htrue | ⟨c, hc, hawakens⟩
      · exact .inl (hpass.trans htrue)
      · -- it is another submitter that is going to awaken the worker
        refine .inr ⟨c, ?_, hawakens⟩
        rw [hset]
        refine Lib.mem_set_of_ne hi hc ?_ b
        rintro rfl
        exact hno hawakens

/-- A submitter moves, and the tasks that are pending stay. -/
theorem Inv.move (h : Inv s) (hi : s.submitters[i]? = some sub) (hnot : sub.pc ≠ .done)
    (hset : s'.submitters = s.submitters.set i b) (hfault : s'.fault = (s.fault || sub.freed))
    (hpending : s'.pending = s.pending) (hcompleted : b.completed = sub.completed)
    (hfreed : b.freed = true → sub.completed = true) (hpc : b.pc ≠ .enqueue) (hgood : b.Good)
    (hqueue : s'.queue ≠ [] → s'.Waits → s'.pass = true ∨ b.pc.Awakens ∨
      (¬sub.pc.Awakens ∧ s.queue ≠ [] ∧ s.Waits ∧ s'.pass = s.pass)) : Inv s' := by
  refine h.put hi hset ?_ ?_ (fun j hj => .inr (hpending ▸ hj)) (fun hmem => ?_) hgood hqueue
  · rw [hfault, h.fault, (h.good sub (List.mem_of_getElem? hi)).not_freed hnot]
    rfl
  · rw [hpending]
    exact h.once
  · obtain ⟨c, hc, hqueued⟩ := h.pending i (hpending ▸ hmem)
    cases hi.symm.trans hc
    refine ⟨hpc, hcompleted.trans hqueued.completed, ?_⟩
    cases hb : b.freed with
    | false => rfl
    | true => exact absurd ((hfreed hb).symm.trans hqueued.completed) (by decide)

/-- Awakening the worker takes nothing out of its hands. -/
theorem State.pending_awaken (s : State) : s.awaken.pending = s.pending := by
  rw [State.pending, State.awaken]
  simp only
  split
  · rename_i hasleep
    rw [State.pending, hasleep]
    rfl
  · rfl

theorem Inv.submitterStep (h : Inv s) (hi : s.submitters[i]? = some sub)
    (hstep : submitterStep maxPending s i sub = some s') : Inv s' := by
  have hgood := h.good sub (List.mem_of_getElem? hi)
  have hnot : sub.pc ≠ .done := by
    intro hpc
    rw [Tasks.submitterStep, hpc] at hstep
    cases hstep
  have hfrozen : sub.freed = true → False := fun hfreed => hnot (hgood.freed hfreed)
  rw [Tasks.submitterStep] at hstep
  split at hstep
  · rename_i hpc
    have hfresh := hgood.fresh hpc
    have hpass : sub.pass = true → False := fun hpass =>
      absurd ((hgood.passed hpass).symm.trans hfresh) (by decide)
    have hno : ¬sub.pc.Awakens := by
      rw [hpc]
      decide
    split at hstep
    · cases hstep
      refine h.move hi hnot rfl ?_ rfl rfl (fun hfreed => (hfrozen hfreed).elim)
        nofun ⟨fun _ => hfresh, fun hfreed => (hfrozen hfreed).elim,
          fun hp => (hpass hp).elim, nofun,
          fun _ hdone => absurd (hdone.symm.trans hfresh) (by decide)⟩
        (fun hne hwaits => .inr (.inr ⟨hno, hne, hwaits, rfl⟩))
      show s.fault = (s.fault || sub.freed)
      rw [hgood.not_freed hnot, Bool.or_false]
    · cases hstep
      -- the task was not in the queue before
      have hnew : i ∉ s.pending := by
        intro hmem
        obtain ⟨c, hc, hqueued⟩ := h.pending i hmem
        cases hi.symm.trans hc
        exact hqueued.pc hpc
      refine h.put (b := { sub with pc := .flag }) hi rfl h.fault ?_ ?_ ?_
        ⟨nofun, fun hfreed => (hfrozen hfreed).elim,
          fun hp => (hpass hp).elim, nofun,
          fun _ hdone => absurd (hdone.symm.trans hfresh) (by decide)⟩
        (fun _ _ => .inr (.inl (.inl rfl)))
      · show (s.worker.tasks ++ (s.queue ++ [i])).Nodup
        rw [← List.append_assoc]
        refine List.nodup_append.mpr ⟨h.once, List.pairwise_singleton _ _, ?_⟩
        rintro j hj _ hj' rfl
        exact hnew (List.mem_singleton.mp hj' ▸ hj)
      · intro j hj
        have hj : j ∈ s.worker.tasks ++ (s.queue ++ [i]) := hj
        rw [← List.append_assoc] at hj
        exact (List.mem_append.mp hj).elim .inr fun hj => .inl (List.mem_singleton.mp hj)
      · exact fun _ => ⟨nofun, hfresh, hgood.not_freed hnot⟩
  · rename_i hpc
    cases hstep
    refine h.move hi hnot rfl rfl rfl rfl (fun hfreed => (hfrozen hfreed).elim) ?_
      ⟨fun hc => ?_, fun hfreed => (hfrozen hfreed).elim, hgood.passed, fun hc => ?_,
        fun hwait hdone => ?_⟩ (fun _ _ => .inr (.inl ?_))
    · show (if sub.noWait then Pc.awaken else Pc.init) ≠ .enqueue
      split <;> decide
    · have hc : (if sub.noWait then Pc.awaken else Pc.init) = .enqueue := hc
      split at hc <;> cases hc
    · have hc : (if sub.noWait then Pc.awaken else Pc.init) = .finish := hc
      split at hc <;> cases hc
    · exact absurd (hdone.symm.trans (hgood.not_completed hwait (.inl hpc))) (by decide)
    · show Pc.Awakens (if sub.noWait then Pc.awaken else Pc.init)
      split
      · exact .inr (.inr rfl)
      · exact .inr (.inl rfl)
  · rename_i hpc
    cases hstep
    refine h.move hi hnot rfl rfl rfl rfl (fun hfreed => (hfrozen hfreed).elim) nofun
      ⟨nofun, fun hfreed => (hfrozen hfreed).elim, nofun,
        nofun, fun hwait hdone => ?_⟩ (fun _ _ => .inr (.inl (.inr (.inr rfl))))
    exact absurd (hdone.symm.trans (hgood.not_completed hwait (.inr (.inl hpc)))) (by decide)
  · rename_i hpc
    cases hstep
    refine h.move (b := { sub with pc := .check }) hi hnot rfl ?_ (State.pending_awaken _) rfl
      (fun hfreed => (hfrozen hfreed).elim) nofun
      ⟨nofun, fun hfreed => (hfrozen hfreed).elim, hgood.passed,
        nofun, fun hwait hdone => ?_⟩ (fun _ _ => .inl rfl)
    · show s.fault = (s.fault || sub.freed)
      rw [hgood.not_freed hnot, Bool.or_false]
    · exact ⟨(hgood.released hwait hdone).1, .inr (.inl rfl)⟩
  · rename_i hpc
    have hno : ¬sub.pc.Awakens := by
      rw [hpc]
      decide
    cases hstep
    refine h.move hi hnot rfl rfl rfl rfl (fun hfreed => (hfrozen hfreed).elim) ?_
      ⟨fun hc => ?_, fun hfreed => (hfrozen hfreed).elim, hgood.passed, fun hc => ?_,
        fun hwait hdone => ?_⟩ (fun hne hwaits => .inr (.inr ⟨hno, hne, hwaits, rfl⟩))
    · show (if sub.noWait then Pc.done else Pc.wait) ≠ .enqueue
      split <;> decide
    · have hc : (if sub.noWait then Pc.done else Pc.wait) = .enqueue := hc
      split at hc <;> cases hc
    · have hc : (if sub.noWait then Pc.done else Pc.wait) = .finish := hc
      split at hc <;> cases hc
    · refine ⟨(hgood.released hwait hdone).1, .inr (.inr (.inl ?_))⟩
      show (if sub.noWait then Pc.done else Pc.wait) = .wait
      rw [if_neg]
      rw [show sub.noWait = false from hwait]
      exact Bool.false_ne_true
  · rename_i hpc
    have hno : ¬sub.pc.Awakens := by
      rw [hpc]
      decide
    cases hstep
    refine h.move hi hnot rfl rfl rfl rfl (fun hfreed => (hfrozen hfreed).elim) ?_
      ⟨fun hc => ?_, fun hfreed => (hfrozen hfreed).elim, hgood.passed, fun hc => ?_,
        fun hwait hdone => ?_⟩ (fun hne hwaits => .inr (.inr ⟨hno, hne, hwaits, rfl⟩))
    · show (if sub.pass then Pc.finish else Pc.asleep) ≠ .enqueue
      split <;> decide
    · have hc : (if sub.pass then Pc.finish else Pc.asleep) = .enqueue := hc
      split at hc <;> cases hc
    · -- the event was set by the worker
      have hc : (if sub.pass then Pc.finish else Pc.asleep) = .finish := hc
      split at hc
      · rename_i hpass
        exact hgood.passed hpass
      · cases hc
    · have hpass := (hgood.released hwait hdone).1
      refine ⟨hpass, .inr (.inr (.inr (.inl ?_)))⟩
      show (if sub.pass then Pc.finish else Pc.asleep) = .finish
      rw [if_pos hpass]
  · cases hstep
  · rename_i hpc
    have hno : ¬sub.pc.Awakens := by
      rw [hpc]
      decide
    cases hstep
    exact h.move hi hnot rfl rfl rfl rfl (fun _ => hgood.finish hpc) nofun
      ⟨nofun, fun _ => rfl, hgood.passed, nofun,
        fun hwait hdone => ⟨(hgood.released hwait hdone).1, .inr (.inr (.inr (.inr rfl)))⟩⟩
      (fun hne hwaits => .inr (.inr ⟨hno, hne, hwaits, rfl⟩))
  · cases hstep

/-- The worker is done with a task whose submitter is ready. -/
theorem Inv.notify (h : Inv s) {task : Nat} (hworker : s.worker = .notify task)
    (hi : s.submitters[task]? = some sub) (hready : sub.Ready) :
    Inv { (s.uses sub).put task sub.notified with worker := .pop } := by
  have hall : s.pending = task :: s.queue := by
    rw [State.pending, hworker]
    rfl
  have hnodup := h.once
  rw [hall] at hnodup
  obtain ⟨hgone, hrest⟩ := List.nodup_cons.mp hnodup
  obtain ⟨c, hc, hqueued⟩ := h.pending task (hall ▸ List.mem_cons_self)
  cases hi.symm.trans hc
  have hgood := h.good sub (List.mem_of_getElem? hi)
  refine h.put hi rfl ?_ hrest (fun j hj => .inr ?_) (fun hmem => absurd hmem hgone) ?_
    (fun _ hwaits => ?_)
  · show (s.fault || sub.freed) = false
    rw [h.fault, hqueued.freed]
    rfl
  · rw [hall]
    exact List.mem_cons_of_mem _ hj
  · rw [Submitter.Ready] at hready
    rw [Submitter.notified]
    split at hready
    · rename_i hno
      rw [if_pos hno]
      refine ⟨fun hc => ?_, fun _ => hready, fun _ => rfl, fun _ => rfl, fun hwait => ?_⟩
      · exact absurd (hready.symm.trans hc) (by decide)
      · exact absurd (hno.symm.trans hwait) (by decide)
    · rename_i hno
      rw [if_neg hno]
      have hpc := hqueued.pc
      have hnot : sub.freed = false := hqueued.freed
      refine ⟨fun hc => ?_, fun hfreed => ?_, fun _ => rfl, fun _ => rfl, fun _ _ => ⟨rfl, ?_⟩⟩
      · have hc : (if sub.pc = .asleep then Pc.finish else sub.pc) = .enqueue := hc
        split at hc
        · cases hc
        · exact absurd hc hpc
      · exact absurd (hnot.symm.trans hfreed) (by decide)
      · show (if sub.pc = .asleep then Pc.finish else sub.pc) = .awaken ∨ _
        cases hpc' : sub.pc with
        | enqueue => exact absurd hpc' hpc
        | flag => exact absurd hpc' hready.1
        | init => exact absurd hpc' hready.2
        | awaken => exact .inl rfl
        | check => exact .inr (.inl rfl)
        | wait => exact .inr (.inr (.inl rfl))
        | asleep => exact .inr (.inr (.inr (.inl rfl)))
        | finish => exact .inr (.inr (.inr (.inl rfl)))
        | done => exact .inr (.inr (.inr (.inr rfl)))
  · rcases hwaits with hwaits | hwaits <;> cases hwaits

/-- The worker moves. -/
theorem Inv.worker (h : Inv s) (hset : s'.submitters = s.submitters) (hfault : s'.fault = false)
    (hpending : s'.pending = s.pending)
    (hqueue : s'.queue ≠ [] → s'.Waits → s.queue ≠ [] ∧ s.Waits ∧ s'.pass = s.pass) : Inv s' := by
  refine ⟨hfault, ?_, ?_, ?_, ?_⟩
  · rw [hpending]
    exact h.once
  · rw [hset, hpending]
    exact h.pending
  · rw [hset]
    exact h.good
  · intro hne hwaits
    obtain ⟨hold, hwaits', hpass⟩ := hqueue hne hwaits
    rw [hset, hpass]
    exact h.queue hold hwaits'

/-- A task that is pending was not freed. -/
theorem Inv.fault_uses (h : Inv s) {task : Nat} (hmem : task ∈ s.pending)
    (hi : s.submitters[task]? = some sub) : (s.uses sub).fault = false := by
  obtain ⟨c, hc, hqueued⟩ := h.pending task hmem
  cases hi.symm.trans hc
  rw [State.fault_uses, h.fault, hqueued.freed]
  rfl

theorem Inv.workerStep (h : Inv s) (hguard : Guarded s .worker) (hstep : workerStep s = some s') :
    Inv s' := by
  rw [Tasks.workerStep] at hstep
  split at hstep
  · rename_i hworker
    cases hstep
    refine h.worker rfl h.fault ?_ (fun hne _ => ⟨hne, .inl hworker, rfl⟩)
    rw [State.pending, State.pending, hworker]
    show (if s.pass then WorkerPc.block else .asleep).tasks ++ s.queue = s.queue
    split <;> rfl
  · cases hstep
  · rename_i hworker
    cases hstep
    refine h.worker rfl h.fault ?_ (fun _ hwaits => ?_)
    · rw [State.pending, State.pending, hworker]
      rfl
    · rcases hwaits with hwaits | hwaits <;> cases hwaits
  · rename_i hworker
    split at hstep
    · -- the queue is empty when the worker goes to wait
      rename_i hqueue
      cases hstep
      refine h.worker rfl h.fault ?_ (fun hne _ => absurd hqueue hne)
      rw [State.pending, State.pending, hworker]
      rfl
    · rename_i task queue hqueue
      obtain ⟨sub, hi, rfl⟩ := Option.map_eq_some_iff.mp hstep
      have hall : s.pending = task :: queue := by
        rw [State.pending, hworker, hqueue]
        rfl
      refine h.worker rfl (h.fault_uses (hall ▸ List.mem_cons_self) hi) hall.symm
        (fun _ hwaits => ?_)
      rcases hwaits with hwaits | hwaits <;> cases hwaits
  · rename_i task hworker
    obtain ⟨sub, hi, rfl⟩ := Option.map_eq_some_iff.mp hstep
    have hall : s.pending = task :: s.queue := by
      rw [State.pending, hworker]
      rfl
    refine h.worker rfl (h.fault_uses (hall ▸ List.mem_cons_self) hi) hall.symm (fun _ hwaits => ?_)
    rcases hwaits with hwaits | hwaits <;> cases hwaits
  · rename_i task hworker
    obtain ⟨sub, hi, rfl⟩ := Option.map_eq_some_iff.mp hstep
    exact h.notify hworker hi (hguard task hworker sub hi)

/-- **Every guarded step keeps the invariant.** -/
theorem Inv.step (h : Inv s) (hstep : GuardedStep maxPending s a s') : Inv s' := by
  obtain ⟨hguard, hstep⟩ := hstep
  cases a with
  | submit noWait =>
    cases hstep
    refine ⟨h.fault, h.once, ?_, ?_, ?_⟩
    · intro j hj
      obtain ⟨sub, hi, hqueued⟩ := h.pending j hj
      refine ⟨sub, ?_, hqueued⟩
      show (s.submitters ++ _)[j]? = some sub
      rw [List.getElem?_append_left (List.getElem?_eq_some_iff.mp hi).1]
      exact hi
    · intro sub hsub
      rcases List.mem_append.mp hsub with hsub | hsub
      · exact h.good sub hsub
      · cases List.mem_singleton.mp hsub
        exact ⟨fun _ => rfl, nofun, nofun, nofun, nofun⟩
    · intro hne hwaits
      rcases h.queue hne hwaits with hpass | ⟨sub, hsub, hawakens⟩
      · exact .inl hpass
      · exact .inr ⟨sub, List.mem_append_left _ hsub, hawakens⟩
  | step i =>
    obtain ⟨sub, hi, hsub⟩ := Option.bind_eq_some_iff.mp hstep
    exact h.submitterStep hi hsub
  | worker => exact h.workerStep hguard hstep
  | timeout =>
    simp only [Step, Tasks.step] at hstep
    split at hstep
    · rename_i hworker
      cases hstep
      refine h.worker rfl h.fault ?_ (fun hne _ => ⟨hne, .inr hworker, rfl⟩)
      rw [State.pending, State.pending, hworker]
      rfl
    · cases hstep
  | spurious =>
    simp only [Step, Tasks.step] at hstep
    split at hstep
    · rename_i hworker
      cases hstep
      refine h.worker rfl h.fault ?_ (fun _ hwaits => ?_)
      · rw [State.pending, State.pending, hworker]
        rfl
      · rcases hwaits with hwaits | hwaits <;> cases hwaits
    · cases hstep
  | wake i =>
    obtain ⟨sub, hi, hsub⟩ := Option.bind_eq_some_iff.mp hstep
    split at hsub
    · -- a task that is complete is not slept over, unless it is not waited for
      rename_i hpc
      cases hsub
      have hgood := h.good sub (List.mem_of_getElem? hi)
      have hdone := hguard sub hi
      have hnot : sub.pc ≠ .done := by
        rw [hpc]
        decide
      have hno : ¬sub.pc.Awakens := by
        rw [hpc]
        decide
      refine h.move (b := { sub with pc := .finish }) hi hnot rfl ?_ rfl rfl (fun _ => hdone) nofun
        ⟨nofun, fun hfreed => absurd (hgood.freed hfreed) hnot, hgood.passed, fun _ => hdone,
          fun hwait hdone => absurd hpc (hgood.released hwait hdone).ne_asleep⟩
        (fun hne hwaits => .inr (.inr ⟨hno, hne, hwaits, rfl⟩))
      show s.fault = (s.fault || sub.freed)
      rw [hgood.not_freed hnot, Bool.or_false]
    · cases hsub

theorem Inv.kept (h : Inv s) : Kept maxPending s where
  fault := h.fault
  completion := by
    intro i sub hi hwait hdone acts s' hrun sub' hi' hasleep
    have hreleased := (h.good sub (List.mem_of_getElem? hi)).released hwait hdone
    obtain ⟨b, hb, hreleased', -⟩ := hrun.invariant
      (fun _ _ _ hold hstep => released_step hold hstep) ⟨sub, hi, hreleased, hwait⟩
    cases hi'.symm.trans hb
    exact hreleased'.ne_asleep hasleep
  queue := by
    intro hne hwaits hpass
    rcases h.queue hne hwaits with htrue | hawakens
    · exact absurd (hpass.symm.trans htrue) (by decide)
    · exact hawakens

end Steps

/-! ## The runs -/

/-- **No completion is lost**, the worker does not sleep over its queue, and nobody uses a task that
was freed, in every guarded run. -/
theorem handOff_kept {maxPending : Int} {acts : List Act} {s : State}
    (hrun : Run (GuardedStep maxPending) init acts s) : Kept maxPending s :=
  (hrun.invariant (fun _ _ _ hi hs => hi.step hs) inv_init).kept

instance (sub : Submitter) : Decidable sub.Ready :=
  inferInstanceAs (Decidable (if sub.noWait then _ else _))

/-- Whether a step is guarded. -/
def guarded (s : State) : Act → Bool
  | .worker =>
    match s.worker with
    | .notify task => s.submitters[task]?.all fun sub => sub.Ready
    | _ => true
  | .wake i => s.submitters[i]?.all Submitter.completed
  | _ => true

theorem guarded_spec {s : State} {a : Act} (h : guarded s a = true) : Guarded s a := by
  cases a with
  | worker =>
    intro task hworker sub hi
    simpa [guarded, hworker, hi] using h
  | wake i =>
    intro sub hi
    simpa [guarded, hi] using h
  | _ => trivial

/-- One step, where it is guarded. -/
def guardedStep (maxPending : Int) (s : State) (a : Act) : Option State :=
  if guarded s a then step maxPending s a else none

theorem guardedStep_spec (maxPending : Int) (s : State) (a : Act) (s' : State)
    (h : guardedStep maxPending s a = some s') : GuardedStep maxPending s a s' := by
  rw [guardedStep] at h
  split at h
  · exact ⟨guarded_spec ‹_›, h⟩
  · cases h

/-- A submitter sleeps until the worker has executed its task, and another does not wait. -/
theorem handOff_kept_two : ∃ s, Run (GuardedStep 160) init [.worker, .submit false, .submit true,
    .step 0, .step 0, .step 0, .step 0, .step 0, .step 0, .worker, .worker, .step 1, .worker,
    .step 1, .worker, .step 0, .worker, .worker, .step 1, .step 1, .worker] s ∧
    s.submitters = [⟨.done, false, true, true, true⟩, ⟨.done, true, false, true, true⟩] ∧
    Kept 160 s := by
  have hrun : Run (GuardedStep 160) init [.worker, .submit false, .submit true,
      .step 0, .step 0, .step 0, .step 0, .step 0, .step 0, .worker, .worker, .step 1, .worker,
      .step 1, .worker, .step 0, .worker, .worker, .step 1, .step 1, .worker]
      ⟨[], 0, true, .pop, [⟨.done, false, true, true, true⟩, ⟨.done, true, false, true, true⟩],
        false⟩ :=
    Run.of_exec (guardedStep_spec 160) (by decide)
  exact ⟨_, hrun, rfl, handOff_kept hrun⟩

/-! ## The worker is too early -/

/-- The submitter sleeps, and the worker does not have its task. -/
def Stuck (i : Nat) (s : State) : Prop :=
  (∃ sub, s.submitters[i]? = some sub ∧ sub.pc = .asleep) ∧ i ∉ s.pending

theorem mem_pending_submitterStep {maxPending : Int} {s s' : State} {i j : Nat} {sub : Submitter}
    (hstep : submitterStep maxPending s j sub = some s') (h : i ∈ s'.pending) :
    (i = j ∧ sub.pc = .enqueue) ∨ i ∈ s.pending := by
  rw [submitterStep] at hstep
  split at hstep
  · rename_i hpc
    split at hstep
    · cases hstep
      exact .inr h
    · cases hstep
      have h : i ∈ s.worker.tasks ++ (s.queue ++ [j]) := h
      rw [← List.append_assoc] at h
      exact (List.mem_append.mp h).elim .inr fun h => .inl ⟨List.mem_singleton.mp h, hpc⟩
  · cases hstep
    exact .inr h
  · cases hstep
    exact .inr h
  · cases hstep
    rw [State.pending_awaken] at h
    exact .inr h
  all_goals cases hstep
  all_goals exact .inr h

theorem mem_pending_workerStep {s s' : State} {i : Nat} (hstep : workerStep s = some s')
    (h : i ∈ s'.pending) : i ∈ s.pending := by
  rw [workerStep] at hstep
  split at hstep
  · cases hstep
    have h : i ∈ (if s.pass then WorkerPc.block else .asleep).tasks ++ s.queue := h
    refine List.mem_append_right _ ?_
    split at h <;> exact h
  · cases hstep
  · cases hstep
    exact List.mem_append_right _ h
  · split at hstep
    · cases hstep
      exact List.mem_append_right _ h
    · rename_i task queue hqueue
      obtain ⟨sub, -, rfl⟩ := Option.map_eq_some_iff.mp hstep
      refine List.mem_append_right _ ?_
      rw [hqueue]
      exact h
  · rename_i task hworker
    obtain ⟨sub, -, rfl⟩ := Option.map_eq_some_iff.mp hstep
    rw [State.pending, hworker]
    exact h
  · obtain ⟨sub, -, rfl⟩ := Option.map_eq_some_iff.mp hstep
    exact List.mem_append_right _ h

/-- A task becomes pending by its submitter. -/
theorem mem_pending_step {maxPending : Int} {s s' : State} {i : Nat} {a : Act}
    (hstep : Step maxPending s a s') (h : i ∈ s'.pending) :
    (∃ sub, s.submitters[i]? = some sub ∧ sub.pc = .enqueue) ∨ i ∈ s.pending := by
  cases a with
  | submit noWait =>
    cases hstep
    exact .inr h
  | step j =>
    obtain ⟨sub, hj, hsub⟩ := Option.bind_eq_some_iff.mp hstep
    refine (mem_pending_submitterStep hsub h).imp_left ?_
    rintro ⟨rfl, hpc⟩
    exact ⟨sub, hj, hpc⟩
  | worker => exact .inr (mem_pending_workerStep hstep h)
  | timeout =>
    simp only [Step, step] at hstep
    split at hstep
    · cases hstep
      exact .inr (List.mem_append_right _ h)
    · cases hstep
  | spurious =>
    simp only [Step, step] at hstep
    split at hstep
    · cases hstep
      exact .inr (List.mem_append_right _ h)
    · cases hstep
  | wake j =>
    obtain ⟨sub, hj, hsub⟩ := Option.bind_eq_some_iff.mp hstep
    split at hsub
    · cases hsub
      exact .inr h
    · cases hsub

theorem stuck_step {maxPending : Int} {s s' : State} {i : Nat} {a : Act} (ha : a ≠ .wake i)
    (h : Stuck i s) (hstep : Step maxPending s a s') : Stuck i s' := by
  obtain ⟨⟨sub, hi, hpc⟩, hpending⟩ := h
  refine ⟨⟨sub, ?_, hpc⟩, fun hmem => ?_⟩
  · cases hstep.change with
    | submit noWait _ hset =>
      rw [hset, List.getElem?_append_left (List.getElem?_eq_some_iff.mp hi).1]
      exact hi
    | step j b _ hj hb =>
      have hji : j ≠ i := by
        rintro rfl
        cases hi.symm.trans hj
        rw [submitterStep, hpc] at hb
        cases hb
      obtain ⟨b', heq⟩ := submitters_submitterStep hb
      rw [heq, getElem?_set hi, if_neg hji]
    | notify task b hworker hj =>
      have htask : task ≠ i := by
        rintro rfl
        refine hpending (List.mem_append_left _ ?_)
        rw [hworker]
        exact List.mem_cons_self
      exact (getElem?_set hi).trans (if_neg htask)
    | wake j b hj hpc' =>
      have hji : j ≠ i := by
        rintro rfl
        exact ha rfl
      exact (getElem?_set hi).trans (if_neg hji)
    | none _ _ hset _ =>
      rw [hset]
      exact hi
  · rcases mem_pending_step hstep hmem with ⟨b, hb, henqueue⟩ | hmem
    · cases hi.symm.trans hb
      rw [hpc] at henqueue
      cases henqueue
    · exact hpending hmem

/-- The worker is up, executes the task and awakens its event before the submitter initialises it:
the task is complete, and its submitter sleeps in everything that follows, unless its wait returns
without a reason.  A submitter whose wait does so frees a task that is still in the queue, and a
worker that is quick frees a task whose flag has not been read. -/
theorem handOff_lost :
    (∃ s, Run (Step 160) init [.submit true, .step 0, .step 0, .step 0, .worker, .worker,
        .submit false, .step 1, .worker, .worker, .worker, .worker, .worker, .worker, .step 1,
        .step 1, .step 1, .step 1, .step 1] s ∧
      s.submitters[1]? = some ⟨.asleep, false, false, true, false⟩ ∧ ¬Kept 160 s ∧
      ∀ acts s', Run (Step 160) s acts s' → .wake 1 ∉ acts →
        ∃ sub, s'.submitters[1]? = some sub ∧ sub.pc = .asleep) ∧
    (∃ s, Run (Step 160) init [.submit false, .step 0, .step 0, .step 0, .step 0, .step 0, .step 0,
        .wake 0, .step 0, .worker, .worker, .worker] s ∧ s.fault = true) ∧
    ∃ s, Run (Step 160) init [.submit true, .submit true, .step 0, .step 0, .step 0, .step 1,
        .worker, .worker, .worker, .worker, .worker, .worker, .worker, .worker, .step 1] s ∧
      s.fault = true := by
  have hrun : Run (Step 160) init [.submit true, .step 0, .step 0, .step 0, .worker, .worker,
      .submit false, .step 1, .worker, .worker, .worker, .worker, .worker, .worker, .step 1,
      .step 1, .step 1, .step 1, .step 1]
      ⟨[], 0, true, .pop, [⟨.check, true, false, true, true⟩,
        ⟨.asleep, false, false, true, false⟩], false⟩ :=
    Run.of_exec (fun _ _ _ h => h) (by decide)
  refine ⟨⟨_, hrun, rfl, fun hkept => ?_, fun acts s' hrun' hno => ?_⟩,
    ⟨⟨[], 0, false, .exec 0, [⟨.done, false, false, false, true⟩], true⟩,
      Run.of_exec (fun _ _ _ h => h) (by decide), rfl⟩,
    ⟨⟨[], 0, false, .pop, [⟨.check, true, false, true, true⟩, ⟨.awaken, true, false, true, true⟩],
      true⟩, Run.of_exec (fun _ _ _ h => h) (by decide), rfl⟩⟩
  · exact hkept.completion 1 _ rfl rfl rfl [] _ (.nil _) _ rfl rfl
  · refine (hrun'.labelled.invariant (P := Stuck 1) (fun _ a _ hs hstep => ?_)
      ⟨⟨_, rfl, rfl⟩, by decide⟩).1
    exact stuck_step (fun heq => hno (heq ▸ hstep.1)) hs hstep.2

end Tasks

end Evfs

end LibNax
