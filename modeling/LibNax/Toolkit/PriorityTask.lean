import LibNax.Toolkit.TaskThread
import Mathlib.Data.List.Nodup
import Mathlib.Data.Option.Basic

/-!
# Priority task threads

`priority_task_thread` and `priority_task_thread_pool` keep their tasks in a priority queue.  The
handlers are the same but for the loop in front of `top()`: the pool waits while the queue is empty,
the thread waits while it is not.

* `pointerCompatibleCompare` and `IsTop` — the order of the queue, and what `top()` may return.
* `step` — both of them, over the workers of `TaskThread`.
* `Sound` — what holds of either, whatever the loop: a task that is taken has the highest priority,
  and no task is executed twice.
* `pool_kept` — the pool never looks at the top of an empty queue, and a task in the queue has a
  worker that comes for it.
* `thread_kept_iff` — the thread does so just when its worker never gets to look at the queue
  before `join`.
-/

set_option autoImplicit false

namespace LibNax

namespace Toolkit

open Lib (Run exec)

namespace PriorityTask

open TaskThread (Pc notifyOne notifyAll)

variable {α : Type}

/-- `priority_task`, with the address that `new` gave it. -/
structure Task (α : Type) where
  address : Nat
  priority : Int
  task : α
  deriving Repr, DecidableEq

/-- `pointer_compatible_compare`: a null pointer is less than any other. -/
def pointerCompatibleCompare : Option (Task α) → Option (Task α) → Bool
  | _, none => false
  | none, some _ => true
  | some left, some right => decide (left.priority < right.priority)

/-- What `top()` of a priority queue may return: an element that none of the others is behind. -/
def IsTop (ptr : Task α) (taskQue : List (Task α)) : Prop :=
  ptr ∈ taskQue ∧ ∀ other ∈ taskQue, pointerCompatibleCompare (some ptr) (some other) = false

instance [DecidableEq α] (ptr : Task α) (taskQue : List (Task α)) :
    Decidable (IsTop ptr taskQue) :=
  inferInstanceAs (Decidable (_ ∧ _))

/-- The members, what was posted and executed so far, and each task that was taken with the queue
as it was then.  `undefined` says that `top()` of an empty queue was called. -/
structure State (α : Type) where
  join : Int
  taskQue : List (Task α)
  workers : List (Pc (Task α))
  posted : List (Task α)
  executed : List (Task α)
  taken : List (Task α × List (Task α))
  undefined : Bool
  deriving Repr, DecidableEq

/-- A step of a worker, or a call.  A worker that takes a task says which one `top()` returned. -/
inductive Act (α : Type) where
  | test (i : Nat)
  | lock (i : Nat) (top : Option (Task α))
  | wake (i : Nat) (top : Option (Task α))
  | onTask (i : Nat)
  /-- A wait may return without a notification. -/
  | spurious (i : Nat)
  | post (tsk : α) (priority : Int) (woken : Option Nat)
  | join (woken : Option Nat)
  deriving Repr, DecidableEq

/-- The worker moves. -/
def State.move (s : State α) (i : Nat) (pc : Pc (Task α)) : State α :=
  { s with workers := s.workers.set i pc }

/-- The condition of the loop around `cv_.wait`. -/
def waits (pool : Bool) (taskQue : List (Task α)) : Bool :=
  if pool then taskQue.isEmpty else !taskQue.isEmpty

/-- A worker with the lock: it waits, or it calls `top()` and `pop()`. -/
def enter [DecidableEq α] (pool : Bool) (s : State α) (i : Nat) :
    Option (Task α) → Option (State α)
  | none =>
    if waits pool s.taskQue then some (s.move i .waiting)
    else if s.taskQue = [] then some { s.move i .done with undefined := true }
    else none
  | some ptr =>
    if waits pool s.taskQue = false ∧ IsTop ptr s.taskQue then
      some { s.move i (.task (some ptr)) with
        taskQue := s.taskQue.erase ptr, taken := s.taken ++ [(ptr, s.taskQue)] }
    else none

/-- A step of the pool, or of the thread. -/
def step [DecidableEq α] (pool : Bool) (s : State α) : Act α → Option (State α)
  | .test i =>
    if s.workers[i]? = some .test then some (s.move i (if s.join < 0 then .lock else .done))
    else none
  | .lock i top => if s.workers[i]? = some .lock then enter pool s i top else none
  | .wake i top =>
    if s.workers[i]? = some .woken then
      if s.join > 0 then some (s.move i .done) else enter pool s i top
    else none
  | .onTask i =>
    match s.workers[i]? with
    | some (.task ptr) => some { s.move i .test with executed := s.executed ++ ptr.toList }
    | _ => none
  | .spurious i => if s.workers[i]? = some .waiting then some (s.move i .woken) else none
  | .post tsk priority woken =>
    (notifyOne s.workers woken).map fun workers =>
      let ptask : Task α := ⟨s.posted.length, priority, tsk⟩
      { s with taskQue := s.taskQue ++ [ptask], posted := s.posted ++ [ptask], workers }
  | .join woken =>
    if pool then some { s with join := 1, workers := notifyAll s.workers }
    else (notifyOne s.workers woken).map fun workers => { s with join := 1, workers }

/-- The threads start. -/
def init (α : Type) (n : Nat) : State α := ⟨-1, [], List.replicate n .test, [], [], [], false⟩

/-- A worker that comes to look at the queue without being notified. -/
def comes {β : Type} : Pc β → Bool
  | .waiting => false
  | .done => false
  | _ => true

/-- What holds of either: a task that was taken was in the queue and had the highest priority, and
no task is executed twice. -/
structure Sound (s : State α) : Prop where
  highest : ∀ t ∈ s.taken, t.1 ∈ t.2 ∧ ∀ other ∈ t.2, other.priority ≤ t.1.priority
  once : s.executed.Nodup ∧ ∀ ptr ∈ s.executed, ptr ∈ s.posted

/-- Nobody looks at the top of an empty queue, and while there is a task in the queue, and `join`
was not called, a worker comes for it. -/
structure Kept (s : State α) : Prop extends Sound s where
  defined : s.undefined = false
  awake : s.taskQue ≠ [] → s.join < 0 → ∃ pc ∈ s.workers, comes pc = true

/-! ## Either loop -/

/-- The tasks that were posted are executed, in the hands of a worker, or in the queue, each of them
once. -/
structure Inv (s : State α) : Prop where
  sign : s.join < 0 ∨ s.join > 0
  highest : ∀ t ∈ s.taken, t.1 ∈ t.2 ∧ ∀ other ∈ t.2, other.priority ≤ t.1.priority
  perm : (s.posted.map some).Perm
    (s.executed.map some ++ (s.workers.flatMap Pc.held ++ s.taskQue.map some))
  nodup : s.posted.Nodup
  fresh : ∀ ptr ∈ s.posted, ptr.address < s.posted.length

section Steps

variable {n i : Nat} {s s' : State α} {a b : Pc (Task α)} {ptr : Task α}

theorem held_replicate (n : Nat) :
    (List.replicate n (Pc.test : Pc (Task α))).flatMap Pc.held = [] := by
  rw [List.flatMap_eq_nil_iff]
  intro pc hpc
  rw [List.eq_of_mem_replicate hpc]
  rfl

theorem inv_init (n : Nat) : Inv (init α n) where
  sign := .inl (Int.negSucc_lt_zero 0)
  highest := by
    intro t ht
    cases ht
  perm := by
    show List.Perm [] ([] ++ ((List.replicate n (Pc.test : Pc (Task α))).flatMap Pc.held ++ []))
    rw [held_replicate]
    exact .refl _
  nodup := .nil
  fresh := by
    intro ptr hptr
    cases hptr

theorem Inv.sound (h : Inv s) : Sound s := by
  have hnodup : (s.posted.map some).Nodup := h.nodup.map (Option.some_injective _)
  refine ⟨h.highest, ?_, fun ptr hptr => ?_⟩
  · exact (List.nodup_append.mp (h.perm.nodup_iff.mp hnodup)).1.of_map _
  · have hmem : some ptr ∈ s.posted.map some :=
      h.perm.mem_iff.mpr (List.mem_append_left _ (List.mem_map_of_mem hptr))
    obtain ⟨ptr', hptr', heq⟩ := List.mem_map.mp hmem
    cases heq
    exact hptr'

/-- A worker moves with what it has. -/
theorem Inv.move (h : Inv s) (hi : s.workers[i]? = some a) (hab : a.held = b.held) :
    Inv (s.move i b) where
  sign := h.sign
  highest := h.highest
  perm := by
    obtain ⟨before, after, hsplit, hset⟩ := Lib.exists_split hi
    have hheld : (s.workers.set i b).flatMap Pc.held = s.workers.flatMap Pc.held := by
      rw [hset, hsplit, List.flatMap_append, List.flatMap_append, List.flatMap_cons,
        List.flatMap_cons, hab]
    show (s.posted.map some).Perm (s.executed.map some ++
      ((s.workers.set i b).flatMap Pc.held ++ s.taskQue.map some))
    rw [hheld]
    exact h.perm
  nodup := h.nodup
  fresh := h.fresh

/-- What the order of the queue says about its top. -/
theorem IsTop.priority_le {taskQue : List (Task α)} (h : IsTop ptr taskQue) :
    ∀ other ∈ taskQue, other.priority ≤ ptr.priority := by
  intro other hother
  have hnot : ¬ptr.priority < other.priority := by
    simpa [pointerCompatibleCompare] using h.2 other hother
  exact Int.not_lt.mp hnot

/-- A worker takes a task. -/
theorem Inv.take [DecidableEq α] (h : Inv s) (hi : s.workers[i]? = some a) (ha : a.held = [])
    (htop : IsTop ptr s.taskQue) :
    Inv { s.move i (.task (some ptr)) with
      taskQue := s.taskQue.erase ptr, taken := s.taken ++ [(ptr, s.taskQue)] } where
  sign := h.sign
  highest := by
    intro t ht
    rcases List.mem_append.mp ht with ht | ht
    · exact h.highest t ht
    · rw [List.mem_singleton] at ht
      subst ht
      exact ⟨htop.1, htop.priority_le⟩
  perm := by
    have hheld : ((s.workers.set i (.task (some ptr))).flatMap Pc.held).Perm
        (some ptr :: s.workers.flatMap Pc.held) := by
      have := Lib.flatMap_set_perm hi Pc.held (.task (some ptr))
      rwa [ha] at this
    have hque : (s.taskQue.map some).Perm (some ptr :: (s.taskQue.erase ptr).map some) :=
      (List.perm_cons_erase htop.1).map some
    refine h.perm.trans (List.Perm.append_left _ ?_)
    exact ((hque.append_left _).trans List.perm_middle).trans (hheld.symm.append_right _)
  nodup := h.nodup
  fresh := h.fresh

/-- A worker with the lock. -/
theorem Inv.enter [DecidableEq α] {pool : Bool} (h : Inv s) (hi : s.workers[i]? = some a)
    (ha : a.held = []) {top : Option (Task α)} (hs : enter pool s i top = some s') : Inv s' := by
  cases top with
  | none =>
    rw [PriorityTask.enter] at hs
    split at hs
    · cases hs
      exact h.move hi ha
    · split at hs
      · cases hs
        have hmove := h.move (b := .done) hi ha
        exact ⟨hmove.sign, hmove.highest, hmove.perm, hmove.nodup, hmove.fresh⟩
      · cases hs
  | some ptr =>
    rw [PriorityTask.enter] at hs
    split at hs
    · cases hs
      exact h.take hi ha (And.right ‹_›)
    · cases hs

/-- A worker is done with a task. -/
theorem Inv.onTask (h : Inv s) (hi : s.workers[i]? = some (.task (some ptr))) :
    Inv { s.move i .test with executed := s.executed ++ [ptr] } where
  sign := h.sign
  highest := h.highest
  perm := by
    have hheld : (some ptr :: (s.workers.set i .test).flatMap Pc.held).Perm
        (s.workers.flatMap Pc.held) := Lib.flatMap_set_perm hi Pc.held .test
    refine h.perm.trans ?_
    show (s.executed.map some ++ _).Perm ((s.executed ++ [ptr]).map some ++
      ((s.workers.set i .test).flatMap Pc.held ++ s.taskQue.map some))
    rw [List.map_append, List.append_assoc]
    exact (hheld.symm.append_right _).append_left _
  nodup := h.nodup
  fresh := h.fresh

theorem inv_congr_workers {workers : List (Pc (Task α))} (h : Inv s)
    (hw : workers.flatMap Pc.held = s.workers.flatMap Pc.held) : Inv { s with workers } where
  sign := h.sign
  highest := h.highest
  perm := by
    rw [hw]
    exact h.perm
  nodup := h.nodup
  fresh := h.fresh

theorem Inv.post (h : Inv s) {ptask : Task α} (hnew : ptask.address = s.posted.length) :
    Inv { s with taskQue := s.taskQue ++ [ptask], posted := s.posted ++ [ptask] } where
  sign := h.sign
  highest := h.highest
  perm := by
    show ((s.posted ++ [ptask]).map some).Perm (s.executed.map some ++
      (s.workers.flatMap Pc.held ++ (s.taskQue ++ [ptask]).map some))
    rw [List.map_append, List.map_append, ← List.append_assoc _ (s.taskQue.map some),
      ← List.append_assoc]
    exact h.perm.append_right _
  nodup := by
    rw [List.nodup_append]
    refine ⟨h.nodup, List.nodup_singleton _, fun ptr hptr other hother heq => ?_⟩
    rw [List.mem_singleton] at hother
    have := h.fresh ptr hptr
    rw [heq, hother, hnew] at this
    exact Nat.lt_irrefl _ this
  fresh := by
    intro ptr hptr
    show ptr.address < (s.posted ++ [ptask]).length
    rw [List.length_append, List.length_singleton]
    rcases List.mem_append.mp hptr with hptr | hptr
    · exact Nat.lt_succ_of_lt (h.fresh ptr hptr)
    · rw [List.mem_singleton.mp hptr, hnew]
      exact Nat.lt_succ_self _

/-- **A step of either keeps the invariant.** -/
theorem Inv.step [DecidableEq α] {pool : Bool} (h : Inv s) {act : Act α}
    (hs : step pool s act = some s') : Inv s' := by
  cases act with
  | test i =>
    rw [PriorityTask.step] at hs
    split at hs
    · rename_i hi
      cases hs
      split
      · exact h.move hi rfl
      · exact h.move hi rfl
    · cases hs
  | lock i top =>
    rw [PriorityTask.step] at hs
    split at hs
    · exact h.enter ‹_› rfl hs
    · cases hs
  | wake i top =>
    rw [PriorityTask.step] at hs
    split at hs
    · rename_i hi
      split at hs
      · cases hs
        exact h.move hi rfl
      · exact h.enter hi rfl hs
    · cases hs
  | onTask i =>
    rw [PriorityTask.step] at hs
    split at hs
    · rename_i ptr hi
      cases hs
      cases ptr with
      | some ptr => exact h.onTask hi
      | none =>
        -- a worker has a task only from the queue, where there are no null pointers
        have hheld : none ∈ s.workers.flatMap Pc.held :=
          List.mem_flatMap.mpr ⟨_, List.mem_of_getElem? hi, List.mem_singleton.mpr rfl⟩
        have hmem := h.perm.mem_iff.mpr
          (List.mem_append_right _ (List.mem_append_left _ hheld))
        obtain ⟨ptr, -, heq⟩ := List.mem_map.mp hmem
        cases heq
    · cases hs
  | spurious i =>
    rw [PriorityTask.step] at hs
    split at hs
    · rename_i hi
      cases hs
      exact h.move hi rfl
    · cases hs
  | post tsk priority woken =>
    obtain ⟨workers, hw, rfl⟩ := Option.map_eq_some_iff.mp hs
    have hnew : (⟨s.posted.length, priority, tsk⟩ : Task α).address = s.posted.length := rfl
    exact inv_congr_workers (h.post hnew) (TaskThread.notified_notifyOne hw).held
  | join woken =>
    rw [PriorityTask.step] at hs
    split at hs
    · cases hs
      have hjoin := inv_congr_workers h (TaskThread.notified_notifyAll s.workers).held
      exact ⟨.inr Int.zero_lt_one, hjoin.highest, hjoin.perm, hjoin.nodup, hjoin.fresh⟩
    · obtain ⟨workers, hw, rfl⟩ := Option.map_eq_some_iff.mp hs
      have hjoin := inv_congr_workers h (TaskThread.notified_notifyOne hw).held
      exact ⟨.inr Int.zero_lt_one, hjoin.highest, hjoin.perm, hjoin.nodup, hjoin.fresh⟩

end Steps

/-! ## The pool -/

/-- Nobody has looked at the top of an empty queue.  Before `join` no worker has ended, and while
one sleeps there are as many others as tasks that come to look at the queue. -/
structure Watched (s : State α) : Prop where
  workers : 0 < s.workers.length
  defined : s.undefined = false
  busy : s.join < 0 → .done ∉ s.workers
  enough : s.join < 0 → .waiting ∈ s.workers → s.taskQue.length ≤ s.workers.countP comes

section Pool

variable {n i : Nat} {s s' : State α} {a b : Pc (Task α)}

theorem watched_init (hn : 0 < n) : Watched (init α n) where
  workers := by rwa [init, List.length_replicate]
  defined := rfl
  busy := fun _ hmem => by cases List.eq_of_mem_replicate hmem
  enough := fun _ hmem => by cases List.eq_of_mem_replicate hmem

/-- A worker moves: it goes to sleep only where the queue is empty, and leaves no more in the queue
than there was. -/
theorem Watched.set (h : Watched s) (hi : s.workers[i]? = some a)
    (hw : s'.workers = s.workers.set i b) (hj : s'.join = s.join)
    (hu : s'.undefined = s.undefined)
    (hb : s.join < 0 → b = .waiting ∧ s'.taskQue = [] ∨
      comes b = true ∧ s'.taskQue.length ≤ s.taskQue.length) : Watched s' := by
  refine ⟨?_, hu.trans h.defined, fun hneg hmem => ?_, fun hneg hmem => ?_⟩
  · rw [hw, List.length_set]
    exact h.workers
  · rw [hj] at hneg
    rw [hw] at hmem
    rcases List.mem_or_eq_of_mem_set hmem with hmem | rfl
    · exact h.busy hneg hmem
    · rcases hb hneg with ⟨heq, -⟩ | ⟨heq, -⟩
      · cases heq
      · cases heq
  · rw [hj] at hneg
    rw [hw] at hmem ⊢
    have hcount := Lib.countP_set hi comes b
    rcases hb hneg with ⟨-, hempty⟩ | ⟨hcomes, hle⟩
    · rw [hempty]
      exact Nat.zero_le _
    · rw [hcomes, if_pos rfl] at hcount
      rcases List.mem_or_eq_of_mem_set hmem with hmem | rfl
      · have := h.enough hneg hmem
        split at hcount
        · omega
        · omega
      · cases hcomes

/-- A worker of the pool with the lock. -/
theorem Watched.enter [DecidableEq α] (h : Watched s) (hi : s.workers[i]? = some a)
    {top : Option (Task α)} (hs : enter true s i top = some s') : Watched s' := by
  cases top with
  | none =>
    rw [PriorityTask.enter] at hs
    split at hs
    · rename_i hempty
      cases hs
      have hnil : s.taskQue = [] := List.isEmpty_iff.mp hempty
      exact h.set hi rfl rfl rfl fun _ => .inl ⟨rfl, hnil⟩
    · rename_i hfull
      rw [if_neg fun hnil => hfull (by rw [hnil]; rfl)] at hs
      cases hs
  | some ptr =>
    rw [PriorityTask.enter] at hs
    split at hs
    · cases hs
      exact h.set hi rfl rfl rfl fun _ => .inr ⟨rfl, List.length_erase_le⟩
    · cases hs

/-- A notification finds a sleeping worker, if there is one. -/
theorem comes_notifyOne [DecidableEq α] {workers workers' : List (Pc (Task α))}
    {woken : Option Nat} (h : notifyOne workers woken = some workers') :
    (.waiting ∉ workers ∧ workers' = workers) ∨
      (∃ i, workers[i]? = some .waiting ∧ workers' = workers.set i .woken) := by
  cases woken with
  | none =>
    rw [notifyOne] at h
    split at h
    · cases h
    · cases h
      exact .inl ⟨‹_›, rfl⟩
  | some i =>
    rw [notifyOne] at h
    split at h
    · cases h
      exact .inr ⟨i, ‹_›, rfl⟩
    · cases h

theorem Watched.post [DecidableEq α] (h : Watched s) {workers : List (Pc (Task α))}
    {woken : Option Nat} (hw : notifyOne s.workers woken = some workers) (ptask : Task α) :
    Watched { s with taskQue := s.taskQue ++ [ptask], posted := s.posted ++ [ptask], workers } := by
  rcases comes_notifyOne hw with ⟨hno, rfl⟩ | ⟨i, hi, rfl⟩
  · exact ⟨h.workers, h.defined, h.busy, fun _ hmem => absurd hmem hno⟩
  · refine ⟨?_, h.defined, fun hneg hmem => ?_, fun hneg _ => ?_⟩
    · rw [List.length_set]
      exact h.workers
    · rcases List.mem_or_eq_of_mem_set hmem with hmem | heq
      · exact h.busy hneg hmem
      · cases heq
    · have hcount := Lib.countP_set hi comes .woken
      have hle := h.enough hneg (List.mem_of_getElem? hi)
      show (s.taskQue ++ [ptask]).length ≤ (s.workers.set i .woken).countP comes
      simp only [comes, Bool.false_eq_true, if_false, if_true] at hcount
      rw [List.length_append, List.length_singleton]
      omega

/-- **A step of the pool keeps the workers watching.** -/
theorem Watched.step [DecidableEq α] (h : Watched s) {act : Act α}
    (hs : step true s act = some s') : Watched s' := by
  cases act with
  | test i =>
    rw [PriorityTask.step] at hs
    split at hs
    · rename_i hi
      cases hs
      refine h.set hi rfl rfl rfl fun hneg => .inr ⟨?_, Nat.le_refl _⟩
      rw [if_pos hneg]
      rfl
    · cases hs
  | lock i top =>
    rw [PriorityTask.step] at hs
    split at hs
    · exact h.enter ‹_› hs
    · cases hs
  | wake i top =>
    rw [PriorityTask.step] at hs
    split at hs
    · rename_i hi
      split at hs
      · cases hs
        exact h.set hi rfl rfl rfl fun hneg => by omega
      · exact h.enter hi hs
    · cases hs
  | onTask i =>
    rw [PriorityTask.step] at hs
    split at hs
    · rename_i ptr hi
      cases hs
      exact h.set hi rfl rfl rfl fun _ => .inr ⟨rfl, Nat.le_refl _⟩
    · cases hs
  | spurious i =>
    rw [PriorityTask.step] at hs
    split at hs
    · rename_i hi
      cases hs
      exact h.set hi rfl rfl rfl fun _ => .inr ⟨rfl, Nat.le_refl _⟩
    · cases hs
  | post tsk priority woken =>
    obtain ⟨workers, hw, rfl⟩ := Option.map_eq_some_iff.mp hs
    exact h.post hw ⟨s.posted.length, priority, tsk⟩
  | join woken =>
    cases hs
    have hnot : ¬(1 : Int) < 0 := by decide
    refine ⟨?_, h.defined, fun hneg => absurd hneg hnot, fun hneg => absurd hneg hnot⟩
    rw [notifyAll, List.length_map]
    exact h.workers

theorem Watched.awake (h : Watched s) (hque : s.taskQue ≠ []) (hneg : s.join < 0) :
    ∃ pc ∈ s.workers, comes pc = true := by
  by_cases hmem : .waiting ∈ s.workers
  · have hle := h.enough hneg hmem
    have hpos := List.length_pos_iff.mpr hque
    exact List.countP_pos_iff.mp (by omega)
  · obtain ⟨pc, hpc⟩ := List.exists_mem_of_length_pos h.workers
    refine ⟨pc, hpc, ?_⟩
    cases pc with
    | waiting => exact absurd hpc hmem
    | done => exact absurd hpc (h.busy hneg)
    | _ => rfl

/-- **The pool keeps its promises**: in every run, whatever the number of its workers, nobody looks
at the top of an empty queue, a task that is taken has the highest priority, no task is executed
twice, and a task in the queue does not wait for workers that all sleep. -/
theorem pool_kept [DecidableEq α] (hn : 0 < n) {acts : List (Act α)}
    (hrun : Run (fun s a s' => step true s a = some s') (init α n) acts s) : Kept s := by
  have hkeep : ∀ (s : State α) (a : Act α) (s' : State α), Inv s ∧ Watched s →
      step true s a = some s' → Inv s' ∧ Watched s' :=
    fun s a s' h hs => ⟨h.1.step hs, h.2.step hs⟩
  obtain ⟨hinv, hwatched⟩ := hrun.invariant hkeep ⟨inv_init n, watched_init hn⟩
  exact { hinv.sound with defined := hwatched.defined, awake := hwatched.awake }

end Pool

/-! ## The thread -/

/-- When the worker takes the lock `join` was called, and there is something in the queue that it
does not look at. -/
def Guarded (s : State α) : Act α → Prop
  | .lock _ _ => s.taskQue ≠ [] ∧ s.join > 0
  | .wake _ _ => s.join > 0
  | _ => True

/-- The only worker has not looked at the queue before `join`. -/
structure Idle (s : State α) : Prop where
  inv : Inv s
  defined : s.undefined = false
  worker : ∃ pc, s.workers = [pc] ∧ (s.join < 0 → pc = .test ∨ pc = .lock)

section Thread

variable {i : Nat} {s s' : State α} {a b : Pc (Task α)}

theorem idle_init : Idle (init α 1) :=
  ⟨inv_init 1, rfl, .test, rfl, fun _ => .inl rfl⟩

theorem Idle.kept (h : Idle s) : Kept s := by
  refine { h.inv.sound with defined := h.defined, awake := fun _ hneg => ?_ }
  obtain ⟨pc, hpc, hwhere⟩ := h.worker
  refine ⟨pc, by rw [hpc]; exact List.mem_cons_self, ?_⟩
  rcases hwhere hneg with rfl | rfl
  · rfl
  · rfl

/-- The worker is the only one. -/
theorem Idle.single (h : Idle s) (hi : s.workers[i]? = some a) :
    i = 0 ∧ s.workers = [a] ∧ (s.join < 0 → a = .test ∨ a = .lock) := by
  obtain ⟨pc, hpc, hwhere⟩ := h.worker
  rw [hpc] at hi
  cases i with
  | zero =>
    cases hi
    exact ⟨rfl, hpc, hwhere⟩
  | succ i => cases hi

/-- The worker moves, before `join` only to the lock. -/
theorem Idle.set (h : Idle s) (hi : s.workers[i]? = some a) (hinv : Inv s')
    (hw : s'.workers = s.workers.set i b) (hu : s'.undefined = s.undefined)
    (hj : s'.join = s.join) (hb : s.join < 0 → b = .lock) : Idle s' := by
  obtain ⟨rfl, hsingle, -⟩ := h.single hi
  refine ⟨hinv, hu.trans h.defined, b, by rw [hw, hsingle]; rfl, fun hneg => ?_⟩
  rw [hj] at hneg
  exact .inr (hb hneg)

/-- The thread with the lock and an empty queue asks for the top of it. -/
theorem enter_empty [DecidableEq α] (hque : s.taskQue = []) {top : Option (Task α)}
    (hs : enter false s i top = some s') : s'.undefined = true := by
  have hwaits : waits false s.taskQue = false := by
    rw [hque]
    rfl
  cases top with
  | none =>
    rw [enter, hwaits, if_neg Bool.false_ne_true, if_pos hque] at hs
    cases hs
    rfl
  | some ptr =>
    rw [enter, if_neg fun hno => List.not_mem_nil (hque ▸ hno.2.1)] at hs
    cases hs

/-- The thread with the lock and tasks in the queue goes to sleep. -/
theorem enter_full [DecidableEq α] (hque : s.taskQue ≠ []) {top : Option (Task α)}
    (hs : enter false s i top = some s') : s' = s.move i .waiting := by
  have hwaits : waits false s.taskQue = true := by
    cases hlist : s.taskQue with
    | nil => exact absurd hlist hque
    | cons ptr taskQue => rfl
  cases top with
  | none =>
    rw [enter, if_pos hwaits] at hs
    cases hs
    rfl
  | some ptr =>
    rw [enter, if_neg fun hno => Bool.false_ne_true (hno.1.symm.trans hwaits)] at hs
    cases hs

/-- The worker gets a notification: before `join` it does not sleep. -/
theorem Idle.notified [DecidableEq α] (h : Idle s) {woken : Option Nat}
    (hw : notifyOne s.workers woken = some s'.workers) (hinv : Inv s')
    (hu : s'.undefined = s.undefined) (hneg : s'.join < 0 → s.join < 0) : Idle s' := by
  obtain ⟨pc, hpc, hwhere⟩ := h.worker
  rcases comes_notifyOne hw with ⟨-, hsame⟩ | ⟨i, hi, hset⟩
  · exact ⟨hinv, hu.trans h.defined, pc, hsame.trans hpc, fun hj => hwhere (hneg hj)⟩
  · obtain ⟨rfl, hsingle, hwait⟩ := h.single hi
    refine ⟨hinv, hu.trans h.defined, .woken, by rw [hset, hsingle]; rfl, fun hj => ?_⟩
    rcases hwait (hneg hj) with heq | heq
    · cases heq
    · cases heq

/-- **A guarded step of the thread** leaves the worker away from the queue. -/
theorem Idle.step [DecidableEq α] (h : Idle s) {act : Act α} (hguard : Guarded s act)
    (hs : step false s act = some s') : Idle s' := by
  have hinv := h.inv.step hs
  cases act with
  | test i =>
    rw [PriorityTask.step] at hs
    split at hs
    · rename_i hi
      cases hs
      exact h.set hi hinv rfl rfl rfl fun hneg => if_pos hneg
    · cases hs
  | lock i top =>
    rw [PriorityTask.step] at hs
    split at hs
    · rename_i hi
      have hpos : s.join > 0 := hguard.2
      have hnot : ¬s.join < 0 := by omega
      rw [enter_full hguard.1 hs] at hinv ⊢
      exact h.set hi hinv rfl rfl rfl fun hneg => absurd hneg hnot
    · cases hs
  | wake i top =>
    rw [PriorityTask.step] at hs
    split at hs
    · rename_i hi
      have hpos : s.join > 0 := hguard
      rw [if_pos hpos] at hs
      cases hs
      have hnot : ¬s.join < 0 := by omega
      exact h.set hi hinv rfl rfl rfl fun hneg => absurd hneg hnot
    · cases hs
  | onTask i =>
    rw [PriorityTask.step] at hs
    split at hs
    · rename_i ptr hi
      cases hs
      obtain ⟨-, -, hwhere⟩ := h.single hi
      refine h.set hi hinv rfl rfl rfl fun hneg => ?_
      rcases hwhere hneg with heq | heq
      · cases heq
      · cases heq
    · cases hs
  | spurious i =>
    rw [PriorityTask.step] at hs
    split at hs
    · rename_i hi
      cases hs
      obtain ⟨-, -, hwhere⟩ := h.single hi
      refine h.set hi hinv rfl rfl rfl fun hneg => ?_
      rcases hwhere hneg with heq | heq
      · cases heq
      · cases heq
    · cases hs
  | post tsk priority woken =>
    obtain ⟨workers, hw, rfl⟩ := Option.map_eq_some_iff.mp hs
    exact h.notified hw hinv rfl id
  | join woken =>
    rw [PriorityTask.step, if_neg Bool.false_ne_true] at hs
    obtain ⟨workers, hw, rfl⟩ := Option.map_eq_some_iff.mp hs
    have hnot : ¬(1 : Int) < 0 := by decide
    exact h.notified hw hinv rfl fun hneg => absurd hneg hnot

/-- A step that is not guarded looks at the top of an empty queue, or goes to sleep beside a
task. -/
theorem Idle.guarded [DecidableEq α] (h : Idle s) {act : Act α}
    (hs : PriorityTask.step false s act = some s') (hkept : Kept s') : Guarded s act := by
  cases act with
  | lock i top =>
    rw [PriorityTask.step] at hs
    split at hs
    · rename_i hi
      obtain ⟨rfl, hsingle, -⟩ := h.single hi
      have hque : s.taskQue ≠ [] := by
        intro hempty
        have hundefined := enter_empty hempty hs
        rw [hkept.defined] at hundefined
        cases hundefined
      refine ⟨hque, h.inv.sign.resolve_left fun hneg => ?_⟩
      rw [enter_full hque hs] at hkept
      obtain ⟨pc, hpc, hcomes⟩ := hkept.awake hque hneg
      have hwait : s.workers.set 0 .waiting = [.waiting] := by rw [hsingle]; rfl
      rw [State.move, hwait, List.mem_singleton] at hpc
      rw [hpc] at hcomes
      cases hcomes
    · cases hs
  | wake i top =>
    rw [PriorityTask.step] at hs
    split at hs
    · rename_i hi
      obtain ⟨-, -, hwhere⟩ := h.single hi
      refine h.inv.sign.resolve_left fun hneg => ?_
      rcases hwhere hneg with heq | heq
      · cases heq
      · cases heq
    · cases hs
  | _ => trivial

end Thread

/-- **The thread keeps the same promises exactly when its worker never looks at the queue**: in
every run all the states are in order if and only if `join` was called, and there is something in
the queue, whenever the worker takes the lock.  Then it goes to sleep and ends, or ends at once, and
executes nothing.  Before `join` there is no third way beside an empty queue, whose top it asks for,
and one with tasks, beside which it goes to sleep. -/
theorem thread_kept_iff [DecidableEq α] (acts : List (Act α)) :
    Lib.Along (step false) Kept (init α 1) acts ↔ Lib.Each (step false) Guarded (init α 1) acts :=
  Lib.along_iff_each (fun _ h => h.kept) (fun _ _ _ h hguard hs => h.step hguard hs)
    (fun _ _ _ h hs hkept => h.guarded hs hkept) acts idle_init

/-- The worker of a new thread asks for the top of the empty queue; where a task was posted before,
it goes to sleep beside the task. -/
theorem thread_not_kept :
    (∃ s, exec (step false) (init Nat 1) [.test 0, .lock 0 none] = some s ∧ ¬Kept s) ∧
    ∃ s, exec (step false) (init Nat 1) [.test 0, .post 7 1 none, .lock 0 none] = some s ∧
      ¬Kept s := by
  refine ⟨⟨⟨-1, [], [.done], [], [], [], true⟩, by decide, fun h => absurd h.defined (by decide)⟩,
    ⟨-1, [⟨0, 1, 7⟩], [.waiting], [⟨0, 1, 7⟩], [], [], false⟩, by decide, fun h => ?_⟩
  obtain ⟨pc, hpc, hcomes⟩ := h.awake (by decide) (by decide)
  rw [List.mem_singleton.mp hpc] at hcomes
  cases hcomes

end PriorityTask

end Toolkit

end LibNax
