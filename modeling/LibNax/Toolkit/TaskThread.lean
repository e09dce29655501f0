import LibNax.Lib.Pool
import LibNax.Lib.Run

/-!
# Task threads

Workers take tasks from a queue, and `join` tells them to stop.  A worker tests the flag before it
takes the lock, and then again only when it comes out of a wait: a `join` that falls between the
test and the lock is not seen by it.

* `State`, `Act` and `step` — `task_thread` and `task_thread_pool`.  What is done under the lock is
  one step, and so is a test of the flag.
* `Guarded` — when `join` takes the lock there is a task for every worker that has passed the test.
* `Kept` — no worker sleeps behind `join`, and no task is executed twice.
* `join_kept` — every run in which `join` is guarded.
-/

set_option autoImplicit false

namespace LibNax

namespace Toolkit

open Lib (Run)

namespace TaskThread

/-! ## The threads -/

variable {α : Type}

/-- Where a worker stands. -/
inductive Pc (α : Type) where
  /-- Before `join_ < 0`. -/
  | test
  /-- Behind the test, before the lock is taken. -/
  | lock
  /-- Asleep in `cv_.wait`. -/
  | waiting
  /-- Woken up in `cv_.wait`, before it has the lock again. -/
  | woken
  /-- With the lock released and a task, which may be a null pointer. -/
  | task (obj : Option α)
  /-- Behind the end of the handler. -/
  | done
  deriving Repr, DecidableEq

/-- The members, and what was posted and executed so far. -/
structure State (α : Type) where
  join : Int
  taskQue : List (Option α)
  workers : List (Pc α)
  posted : List (Option α)
  executed : List α
  deriving Repr, DecidableEq

/-- A step of a worker, or a call.  A notification of one thread says which one, if there is one. -/
inductive Act (α : Type) where
  | test (i : Nat)
  | lock (i : Nat)
  | wake (i : Nat)
  | onTask (i : Nat)
  /-- A wait may return without a notification. -/
  | spurious (i : Nat)
  | post (tsk : Option α) (woken : Option Nat)
  | join (woken : Option Nat)
  deriving Repr, DecidableEq

/-- `notify_one`. -/
def notifyOne [DecidableEq α] (workers : List (Pc α)) : Option Nat → Option (List (Pc α))
  | some i => if workers[i]? = some .waiting then some (workers.set i .woken) else none
  | none => if .waiting ∈ workers then none else some workers

/-- A worker that is waiting wakes up. -/
def Pc.notified : Pc α → Pc α
  | .waiting => .woken
  | pc => pc

/-- `notify_all`. -/
def notifyAll (workers : List (Pc α)) : List (Pc α) := workers.map Pc.notified

/-- Where a worker with the lock goes, and the queue. -/
def takeTask : List (Option α) → Pc α × List (Option α)
  | [] => (.waiting, [])
  | obj :: taskQue => (.task obj, taskQue)

/-- The worker moves. -/
def State.move (s : State α) (i : Nat) (pc : Pc α) : State α :=
    { s with workers := s.workers.set i pc }

/-- A step of the pool, or of the thread: `join` notifies all of the workers, or one. -/
def step [DecidableEq α] (pool : Bool) (s : State α) : Act α → Option (State α)
  | .test i =>
    if s.workers[i]? = some .test then some
    (s.move i (if s.join < 0 then .lock else .done)) else none
  | .lock i =>
    if s.workers[i]? = some .lock then
      let t := takeTask s.taskQue
      some { s.move i t.1 with taskQue := t.2 }
    else none
  | .wake i =>
    if s.workers[i]? = some .woken then
      if s.join > 0 then some (s.move i .done)
      else
        let t := takeTask s.taskQue
        some { s.move i t.1 with taskQue := t.2 }
    else none
  | .onTask i =>
    match s.workers[i]? with
    | some (.task obj) => some { s.move i .test with executed := s.executed ++ obj.toList }
    | _ => none
  | .spurious i => if s.workers[i]? = some .waiting then some (s.move i .woken) else none
  | .post tsk woken =>
    (notifyOne s.workers woken).map fun workers =>
      { s with taskQue := s.taskQue ++ [tsk], posted := s.posted ++ [tsk], workers }
  | .join woken =>
    if s.join < 0 then
      if pool then some { s with join := 1, workers := notifyAll s.workers }
      else (notifyOne s.workers woken).map fun workers => { s with join := 1, workers }
    else none

/-- The threads start. -/
def init (α : Type) (n : Nat) : State α := ⟨-1, [], List.replicate n .test, [], []⟩

/-- Whether a worker has passed the test and not yet taken the lock. -/
def Pc.isLock : Pc α → Bool
  | .lock => true
  | _ => false

/-- When `join` takes the lock there is a task for every worker that has passed the test. -/
def Guarded (s : State α) : Act α → Prop
  | .join _ => s.workers.countP Pc.isLock ≤ s.taskQue.length
  | _ => True

/-- A step in which `join` is guarded. -/
def GuardedStep [DecidableEq α] (pool : Bool) (s : State α) (a : Act α) (s' : State α) : Prop :=
  Guarded s a ∧ step pool s a = some s'

/-- No worker sleeps behind `join`, and no task is executed more often than it was posted; a single
thread executes the tasks in the order in which they were posted. -/
structure Kept [DecidableEq α] (n : Nat) (s : State α) : Prop where
  awake : s.join > 0 → .waiting ∉ s.workers
  once : ∀ obj, s.executed.count obj ≤ s.posted.count (some obj)
  order : n = 1 → s.executed <+: s.posted.filterMap id

/-! ## The invariant -/

/-- The task that a worker has in its hands. -/
def Pc.held : Pc α → List (Option α)
  | .task obj => [obj]
  | _ => []

/-- The tasks that were posted are done, in the hands of a worker, or in the queue. -/
structure Flow (n : Nat) (s : State α) (done : List (Option α)) : Prop where
  executed : s.executed = done.filterMap id
  perm : s.posted.Perm (done ++ (s.workers.flatMap Pc.held ++ s.taskQue))
  order : n = 1 → s.posted = done ++ (s.workers.flatMap Pc.held ++ s.taskQue)

structure Inv (n : Nat) (s : State α) : Prop where
  length : s.workers.length = n
  sign : s.join < 0 ∨ s.join > 0
  awake : s.join > 0 → .waiting ∉ s.workers ∧ s.workers.countP Pc.isLock ≤ s.taskQue.length
  flow : ∃ done, Flow n s done

section Steps

variable {n i : Nat} {s : State α} {a b : Pc α} {obj : Option α} {done : List (Option α)}

theorem inv_init (n : Nat) : Inv n (init α n) := by
  have hheld : (List.replicate n (Pc.test : Pc α)).flatMap Pc.held = [] := by
    rw [List.flatMap_eq_nil_iff]
    intro pc hpc
    rw [List.eq_of_mem_replicate hpc]
    rfl
  have hneg : (init α n).join < 0 := Int.negSucc_lt_zero 0
  refine ⟨List.length_replicate, .inl hneg, fun h =>
    absurd h (Int.not_lt.mpr (Int.le_of_lt hneg)), [], rfl,
    ?_, fun _ => ?_⟩
  · show List.Perm [] (([] : List (Option α)) ++ ((List.replicate n Pc.test).flatMap Pc.held ++ []))
    rw [hheld]
    exact .refl _
  · show [] = ([] : List (Option α)) ++ ((List.replicate n Pc.test).flatMap Pc.held ++ [])
    rw [hheld]
    rfl

/-- There is one worker. -/
theorem eq_singleton (hn : s.workers.length = n) (hone : n = 1) (hi : s.workers[i]? = some a) :
    s.workers = [a] ∧ ∀ b, s.workers.set i b = [b] := by
  obtain ⟨before, after, hsplit, hset⟩ := Lib.exists_split hi
  rw [hsplit, List.length_append, List.length_cons] at hn
  have hbefore : before = [] := List.eq_nil_of_length_eq_zero (by omega)
  have hafter : after = [] := List.eq_nil_of_length_eq_zero (by omega)
  subst hbefore hafter
  exact ⟨hsplit, hset⟩

/-- The tasks in the hands of the workers do not change. -/
theorem Flow.congr {workers : List (Pc α)} (h : Flow n s done)
    (heq : workers.flatMap Pc.held = s.workers.flatMap Pc.held) :
    Flow n { s with workers } done where
  executed := h.executed
  perm := by
    rw [heq]
    exact h.perm
  order := by
    rw [heq]
    exact h.order

theorem flatMap_held_set (hi : s.workers[i]? = some a) (hab : a.held = b.held) :
    (s.workers.set i b).flatMap Pc.held = s.workers.flatMap Pc.held := by
  obtain ⟨before, after, hsplit, hset⟩ := Lib.exists_split hi
  rw [hset, hsplit, List.flatMap_append, List.flatMap_append, List.flatMap_cons,
    List.flatMap_cons, hab]

/-- A worker moves with what it has. -/
theorem Inv.move (h : Inv n s) (hi : s.workers[i]? = some a) (hab : a.held = b.held)
    (hb : s.join > 0 → b ≠ .waiting ∧ b.isLock = false) : Inv n (s.move i b) := by
  obtain ⟨done, hflow⟩ := h.flow
  refine ⟨(List.length_set ..).trans h.length, h.sign, fun hj => ?_, done,
    hflow.congr (flatMap_held_set hi hab)⟩
  obtain ⟨hawake, hcount⟩ := h.awake hj
  obtain ⟨hne, hlock⟩ := hb hj
  have hset := Lib.countP_set hi Pc.isLock b
  rw [hlock] at hset
  refine ⟨fun hmem => ?_, ?_⟩
  · rcases List.mem_or_eq_of_mem_set hmem with hmem | heq
    · exact hawake hmem
    · exact hne heq.symm
  · show (s.workers.set i b).countP Pc.isLock ≤ s.taskQue.length
    simp only [Bool.false_eq_true, if_false] at hset
    omega

/-- A worker takes a task. -/
theorem Flow.take {taskQue : List (Option α)} (h : Flow n s done) (hn : s.workers.length = n)
    (hi : s.workers[i]? = some a) (ha : a.held = []) (hque : s.taskQue = obj :: taskQue) :
    Flow n { s.move i (.task obj) with taskQue := taskQue } done := by
  have hperm : ((s.workers.set i (.task obj)).flatMap Pc.held).Perm
      (obj :: s.workers.flatMap Pc.held) := by
    have := Lib.flatMap_set_perm hi Pc.held (.task obj)
    rwa [ha] at this
  refine ⟨h.executed, ?_, fun hone => ?_⟩
  · refine h.perm.trans (List.Perm.append_left _ ?_)
    rw [hque]
    exact List.perm_middle.trans (hperm.symm.append_right taskQue)
  · have horder := h.order hone
    obtain ⟨hsingle, hset⟩ := eq_singleton hn hone hi
    rw [hsingle, hque, List.flatMap_singleton, ha] at horder
    show s.posted = done ++ ((s.workers.set i (.task obj)).flatMap Pc.held ++ taskQue)
    rw [hset, List.flatMap_singleton]
    exact horder

theorem Inv.take (h : Inv n s) (hi : s.workers[i]? = some a) (ha : a.held = [])
    (hlock : s.join > 0 → a.isLock = true) :
    Inv n { s.move i (takeTask s.taskQue).1 with taskQue := (takeTask s.taskQue).2 } := by
  cases hque : s.taskQue with
  | nil =>
    have hnot : ¬s.join > 0 := by
      intro hj
      have hcount := (h.awake hj).2
      rw [hque, List.length_nil, Nat.le_zero, List.countP_eq_zero] at hcount
      exact hcount a (List.mem_of_getElem? hi) (hlock hj)
    have hmove := h.move (b := .waiting) hi ha fun hj => absurd hj hnot
    have hsame : s.move i .waiting = { s.move i .waiting with taskQue := [] } := by
      rw [← hque]
      rfl
    rw [hsame] at hmove
    exact hmove
  | cons obj taskQue =>
    obtain ⟨done, hflow⟩ := h.flow
    refine ⟨(List.length_set ..).trans h.length, h.sign, fun hj => ?_, done,
      hflow.take h.length hi ha hque⟩
    obtain ⟨hawake, hcount⟩ := h.awake hj
    have hset := Lib.countP_set hi Pc.isLock (.task obj)
    rw [hlock hj] at hset
    refine ⟨fun hmem => ?_, ?_⟩
    · rcases List.mem_or_eq_of_mem_set hmem with hmem | heq
      · exact hawake hmem
      · cases heq
    · show (s.workers.set i (.task obj)).countP Pc.isLock ≤ taskQue.length
      rw [hque, List.length_cons] at hcount
      simp only [Pc.isLock, if_true, Bool.false_eq_true, if_false] at hset
      omega

/-- A worker is done with a task. -/
theorem Inv.onTask (h : Inv n s) (hi : s.workers[i]? = some (.task obj)) :
    Inv n { s.move i .test with executed := s.executed ++ obj.toList } := by
  obtain ⟨done, hflow⟩ := h.flow
  refine ⟨(List.length_set ..).trans h.length, h.sign, fun hj => ?_, done ++ [obj], ?_, ?_,
    fun hone => ?_⟩
  · obtain ⟨hawake, hcount⟩ := h.awake hj
    have hset := Lib.countP_set hi Pc.isLock .test
    simp only [Pc.isLock, Bool.false_eq_true, if_false] at hset
    refine ⟨fun hmem => ?_, ?_⟩
    · rcases List.mem_or_eq_of_mem_set hmem with hmem | heq
      · exact hawake hmem
      · cases heq
    · show (s.workers.set i .test).countP Pc.isLock ≤ s.taskQue.length
      omega
  · show s.executed ++ obj.toList = _
    rw [hflow.executed, List.filterMap_append]
    cases obj with
    | none => rfl
    | some obj => rfl
  · have hperm : (obj :: (s.workers.set i .test).flatMap Pc.held).Perm
        (s.workers.flatMap Pc.held) :=
      Lib.flatMap_set_perm hi Pc.held .test
    refine hflow.perm.trans ?_
    show (done ++ _).Perm (done ++ [obj] ++ ((s.workers.set i .test).flatMap Pc.held ++ s.taskQue))
    rw [List.append_assoc]
    exact (hperm.symm.append_right s.taskQue).append_left done
  · have horder := hflow.order hone
    obtain ⟨hsingle, hset⟩ := eq_singleton h.length hone hi
    rw [hsingle, List.flatMap_singleton] at horder
    show s.posted = done ++ [obj] ++ ((s.workers.set i .test).flatMap Pc.held ++ s.taskQue)
    rw [hset, List.flatMap_singleton, List.append_assoc]
    exact horder

/-- Some workers that were waiting are woken up. -/
structure Notified (workers workers' : List (Pc α)) : Prop where
  length : workers'.length = workers.length
  held : workers'.flatMap Pc.held = workers.flatMap Pc.held
  isLock : workers'.countP Pc.isLock = workers.countP Pc.isLock
  awake : .waiting ∉ workers → .waiting ∉ workers'

theorem notified_notifyAll (workers : List (Pc α)) : Notified workers (notifyAll workers) := by
  have hheld : ∀ pc : Pc α, pc.notified.held = pc.held := by
    intro pc
    cases pc with
    | _ => rfl
  have hlock : ∀ pc : Pc α, pc.notified.isLock = pc.isLock := by
    intro pc
    cases pc with
    | _ => rfl
  refine ⟨List.length_map .., ?_, ?_, fun hno hmem => ?_⟩
  · rw [notifyAll, List.flatMap_map]
    simp only [hheld]
  · rw [notifyAll, List.countP_map]
    exact congrFun (congrArg List.countP (funext hlock)) workers
  · obtain ⟨pc, hpc, heq⟩ := List.mem_map.mp hmem
    cases pc with
    | waiting => exact hno hpc
    | _ => cases heq

theorem notifyAll_awake (workers : List (Pc α)) : .waiting ∉ notifyAll workers := by
  intro hmem
  obtain ⟨pc, -, heq⟩ := List.mem_map.mp hmem
  cases pc with
  | _ => cases heq

theorem notified_notifyOne [DecidableEq α] {workers workers' : List (Pc α)} {woken : Option Nat}
    (h : notifyOne workers woken = some workers') : Notified workers workers' := by
  cases woken with
  | none =>
    rw [notifyOne] at h
    split at h
    · cases h
    · cases h
      exact ⟨rfl, rfl, rfl, id⟩
  | some i =>
    rw [notifyOne] at h
    split at h
    · rename_i hi
      cases h
      obtain ⟨before, after, rfl, hset⟩ := Lib.exists_split hi
      have hmem : Pc.waiting ∈ before ++ Pc.waiting :: after :=
        List.mem_append_right _ List.mem_cons_self
      rw [hset]
      refine ⟨?_, ?_, ?_, fun hno => absurd hmem hno⟩
      · simp only [List.length_append, List.length_cons]
      · simp only [List.flatMap_append, List.flatMap_cons, Pc.held]
      · rw [List.countP_append, List.countP_cons, List.countP_append, List.countP_cons]
        rfl
    · cases h

/-- A single thread is awake when it was notified. -/
theorem notifyOne_awake [DecidableEq α] {workers workers' : List (Pc α)} {woken : Option Nat}
    (hone : workers.length = 1) (h : notifyOne workers woken = some workers') :
    .waiting ∉ workers' := by
  cases woken with
  | none =>
    rw [notifyOne] at h
    split at h
    · cases h
    · cases h
      assumption
  | some i =>
    rw [notifyOne] at h
    split at h
    · rename_i hi
      cases h
      match workers, hone, i, hi with
      | [pc], _, 0, _ => simp
    · cases h

theorem Inv.post (h : Inv n s) {workers : List (Pc α)} (hw : Notified s.workers workers) :
    Inv n { s with taskQue := s.taskQue ++ [obj], posted := s.posted ++ [obj], workers } := by
  obtain ⟨done, hflow⟩ := h.flow
  refine ⟨hw.length.trans h.length, h.sign, fun hj => ?_, done, hflow.executed, ?_, fun hone => ?_⟩
  · obtain ⟨hawake, hcount⟩ := h.awake hj
    refine ⟨hw.awake hawake, ?_⟩
    show workers.countP Pc.isLock ≤ (s.taskQue ++ [obj]).length
    rw [hw.isLock, List.length_append]
    omega
  · show (s.posted ++ [obj]).Perm (done ++ (workers.flatMap Pc.held ++ (s.taskQue ++ [obj])))
    rw [hw.held, ← List.append_assoc _ s.taskQue, ← List.append_assoc]
    exact hflow.perm.append_right [obj]
  · show s.posted ++ [obj] = done ++ (workers.flatMap Pc.held ++ (s.taskQue ++ [obj]))
    rw [hw.held, hflow.order hone]
    simp only [List.append_assoc]

theorem Inv.join (h : Inv n s) {workers : List (Pc α)} (hw : Notified s.workers workers)
    (hawake : .waiting ∉ workers) (hguard : s.workers.countP Pc.isLock ≤ s.taskQue.length) :
    Inv n { s with join := 1, workers } := by
  obtain ⟨done, hflow⟩ := h.flow
  refine ⟨hw.length.trans h.length, .inr (Int.zero_lt_one), fun _ => ⟨hawake, ?_⟩, done,
    hflow.executed,
    ?_, fun hone => ?_⟩
  · show workers.countP Pc.isLock ≤ s.taskQue.length
    rw [hw.isLock]
    exact hguard
  · show s.posted.Perm (done ++ (workers.flatMap Pc.held ++ s.taskQue))
    rw [hw.held]
    exact hflow.perm
  · show s.posted = done ++ (workers.flatMap Pc.held ++ s.taskQue)
    rw [hw.held]
    exact hflow.order hone

end Steps

section Runs

variable [DecidableEq α] {pool : Bool} {n : Nat} {s s' : State α}

/-- **A step keeps the invariant**, if `join` is guarded. -/
theorem Inv.step (hn : pool = true ∨ n = 1) (h : Inv n s) {a : Act α} (hguard : Guarded s a)
    (hs : step pool s a = some s') : Inv n s' := by
  cases a with
  | test i =>
    rw [TaskThread.step] at hs
    split at hs
    · rename_i hi
      cases hs
      split
      · exact h.move hi rfl fun hj => absurd hj (by omega)
      · exact h.move hi rfl fun _ => ⟨fun heq => (by cases heq), rfl⟩
    · cases hs
  | lock i =>
    rw [TaskThread.step] at hs
    split at hs
    · rename_i hi
      cases hs
      exact h.take hi rfl fun _ => rfl
    · cases hs
  | wake i =>
    rw [TaskThread.step] at hs
    split at hs
    · rename_i hi
      split at hs
      · cases hs
        exact h.move hi rfl fun _ => ⟨fun heq => (by cases heq), rfl⟩
      · cases hs
        exact h.take hi rfl fun hj => absurd hj ‹_›
    · cases hs
  | onTask i =>
    rw [TaskThread.step] at hs
    split at hs
    · cases hs
      exact h.onTask ‹_›
    · cases hs
  | spurious i =>
    rw [TaskThread.step] at hs
    split at hs
    · rename_i hi
      cases hs
      exact h.move hi rfl fun _ => ⟨fun heq => (by cases heq), rfl⟩
    · cases hs
  | post tsk woken =>
    obtain ⟨workers, hw, rfl⟩ := Option.map_eq_some_iff.mp hs
    exact h.post (notified_notifyOne hw)
  | join woken =>
    rw [TaskThread.step] at hs
    split at hs
    · split at hs
      · cases hs
        exact h.join (notified_notifyAll _) (notifyAll_awake _) hguard
      · rename_i hpool
        obtain ⟨workers, hw, rfl⟩ := Option.map_eq_some_iff.mp hs
        have hone : s.workers.length = 1 := h.length.trans (hn.resolve_left hpool)
        exact h.join (notified_notifyOne hw) (notifyOne_awake hone hw) hguard
    · cases hs

theorem Inv.kept (h : Inv n s) : Kept n s := by
  obtain ⟨done, hflow⟩ := h.flow
  refine ⟨fun hj => (h.awake hj).1, fun obj => ?_, fun hone => ?_⟩
  · have hcount : (done.filterMap id).count obj = done.count (some obj) := by
      clear * -
      induction done with
      | nil => rfl
      | cons a done ih => cases a with
        | none => simpa [List.filterMap_cons] using ih
        | some a => simpa [List.filterMap_cons, List.count_cons] using ih
    rw [hflow.executed, hcount, hflow.perm.count_eq, List.count_append]
    exact Nat.le_add_right ..
  · rw [hflow.executed, hflow.order hone, List.filterMap_append]
    exact List.prefix_append _ _

/-- **No worker is left asleep behind `join`** and no task is executed twice, in every run of a
thread or a pool in which `join` finds a task for every worker that is between the test and the
lock. -/
theorem join_kept (hn : pool = true ∨ n = 1) {acts : List (Act α)}
    (hrun : Run (GuardedStep pool) (init α n) acts s) : Kept n s :=
  (hrun.invariant (P := Inv n) (fun _ _ _ hi hs => hi.step hn hs.1 hs.2) (inv_init n)).kept

end Runs

/-- One step, where `join` is guarded. -/
def guardedStep [DecidableEq α] (pool : Bool) (s : State α) (a : Act α) : Option (State α) :=
  match a with
  | .join _ => if s.workers.countP Pc.isLock ≤ s.taskQue.length then step pool s a else none
  | _ => step pool s a

theorem guardedStep_spec [DecidableEq α] (pool : Bool) (s : State α) (a : Act α) (s' : State α)
    (h : guardedStep pool s a = some s') : GuardedStep pool s a s' := by
  cases a with
  | join woken =>
    rw [guardedStep] at h
    split at h
    · exact ⟨‹_›, h⟩
    · cases h
  | _ => exact ⟨trivial, h⟩

/-- A thread waits, executes a task, waits again and is joined. -/
theorem join_kept_thread : ∃ s,
    Run (GuardedStep false) (init Nat 1) [.test 0, .lock 0, .post (some 7) (some 0),
    .wake 0, .onTask 0, .test 0, .lock 0, .join (some 0), .wake 0] s ∧ s.workers = [.done] ∧
      s.executed = [7] ∧ Kept 1 s := by
  have hrun : Run (GuardedStep false) (init Nat 1)
      [.test 0, .lock 0, .post (some 7) (some 0), .wake 0,
      .onTask 0, .test 0, .lock 0, .join (some 0), .wake 0] ⟨1, [], [.done], [some 7], [7]⟩ :=
    Run.of_exec (guardedStep_spec false) (by decide)
  exact ⟨_, hrun, rfl, rfl, join_kept (.inr rfl) hrun⟩

/-- The worker has passed the test when `join` comes, and sleeps for ever: a thread, and a pool. -/
theorem join_missed : (∃ s, Run (fun s a s' => step false s a = some s') (init Nat 1)
      [.test 0, .join none, .lock 0] s ∧ s.join = 1 ∧ .waiting ∈ s.workers) ∧
    ∃ s, Run (fun s a s' => step true s a = some s') (init Nat 2)
      [.test 0, .test 1, .join none, .lock 0, .lock 1] s ∧ s.join = 1 ∧ .waiting ∈ s.workers :=
  ⟨⟨⟨1, [], [.waiting], [], []⟩, Run.of_exec (fun _ _ _ h => h) (by decide), rfl, by decide⟩,
    ⟨⟨1, [], [.waiting, .waiting], [], []⟩, Run.of_exec (fun _ _ _ h => h) (by decide),
    rfl, by decide⟩⟩

end TaskThread

end Toolkit

end LibNax
