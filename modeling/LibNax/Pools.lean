import LibNax.Lib.Pool
import LibNax.Refs

/-!
# The worker pool and the IO pool

`wpool.c` and `io.c` keep one pool for each protocol in a slot, with the same functions under two
names.  `wp_init` puts a pool in the slot, `wp_uninit` takes it out and closes it, and whoever uses
it retains it and releases it after.  The slot is changed by compare-and-swap, the reference count
under a mutex.  The two differ in what stops the threads of a pool that is destroyed: `_wp_uninit`
does, while `_io_uninit` returns at its first check, which is made the wrong way round.

`wp_uninit` gives `__atomic_compare_exchange_n` the pool itself where the address of its local
variable is meant: the slot is compared with the first eight bytes of the pool, which are the
reference count and the status, and where they differ these bytes are overwritten.  A pool that is
open has as many references as it has users, and these are fewer than its address, so the bytes
always differ: `wp_uninit` never takes a pool out.

Nor could it be taken out well.  `on_closed` frees the pool whose `ref` it is called on, and both
`ref_release` and `ref_close` use this `ref` after `on_closed` has returned (`destroyed_used`).

* `State`, `Act` and `step` — the callers.  What is done under the mutex is one step.
* `Room` — the threads of a pool can be started, and its users can be counted.
* `Guarded` — no `wp_uninit` comes to its compare-and-swap.
* `Kept` — what is asked of the pools.
* `pools_iff` — the runs that keep it.
-/

set_option autoImplicit false

namespace LibNax

namespace Pools

open Lib (Along Each Run int32)

open Refs (RefsT refInit refRetain refRelease refClose refStatusNormal)

/-! ## The pools -/

/-- `wpool.c` or `io.c`. -/
inductive Api where
  | wp
  | io
  deriving Repr, DecidableEq

/-- A pool, by its `ref`.  The pools are numbered in the order in which they came into a slot. -/
structure Pool where
  id : Nat
  ref : RefsT
  deriving Repr, DecidableEq

/-- The first eight bytes of the pool. -/
def Pool.word (pool : Pool) : Int :=
  pool.ref.count % 2 ^ 32 + pool.ref.status % 2 ^ 32 * 2 ^ 32

/-- The first eight bytes of the pool are overwritten. -/
def Pool.overwritten (pool : Pool) (v : Int) : Pool :=
  { pool with ref := { pool.ref with count := int32 v, status := int32 (v / 2 ^ 32) } }

/-- The places of `_wpmgr` and of `_iomgr`. -/
inductive Slot where
  | tcp
  | udp
  deriving Repr, DecidableEq

/-- `_wp_locate_protocol`, by the numbers of `IPPROTO_TCP` and `IPPROTO_UDP`. -/
def locateProtocol (protocol : Int) : Option Slot :=
  if protocol = 6 then some .tcp else if protocol = 17 then some .udp else none

/-! ## The callers -/

/-- Where a call stands. -/
inductive Pc where
  /-- `wp_init`, before it locks the mutex. -/
  | initRun (slot : Slot) (poolptr : Nat)
  /-- `wp_uninit`, before the compare-and-swap. -/
  | uninitCas (slot : Slot) (poolptr : Nat)
  /-- `wp_uninit`, before it locks the mutex. -/
  | uninitClose (poolptr : Nat)
  /-- Between `_wp_safe_retain` and `_wp_safe_release`. -/
  | use (poolptr : Nat) (id : Nat)
  /-- Returned. -/
  | done
  deriving Repr, DecidableEq

/-- The slots, the memory at the addresses of pools, the calls, and the numbers of the pools whose
threads run.  Besides, the numbers of the pools that were taken out by `wp_uninit` and of those that
were destroyed, and whether the last change of a slot was asked for by a `wp_uninit`.  `fault` is set
where memory is used that is not there. -/
structure State where
  slot : Slot → Nat
  pools : Nat → Option Pool
  next : Nat
  threads : List Pc
  workers : List Nat
  shut : Slot → Bool
  removed : List Nat
  destroyed : List Nat
  fault : Bool

/-- A new call, or the next step of one.  The memory for a new pool comes from the allocator, and
`ok` is whether the threads of the pool can be started. -/
inductive Act where
  | init (protocol : Int) (poolptr : Nat)
  | uninit (protocol : Int)
  | retain (protocol : Int)
  | step (i : Nat) (ok : Bool)
  deriving Repr, DecidableEq

/-- A new call. -/
def State.start (s : State) (pc : Pc) : State := { s with threads := s.threads ++ [pc] }

/-- The call moves. -/
def State.move (s : State) (i : Nat) (pc : Pc) : State := { s with threads := s.threads.set i pc }

/-- `_wp_uninit` and `_io_uninit`: the pools whose threads run after it. -/
def uninitThreads (id : Nat) (workers : List Nat) : Api → List Nat
  | .wp => workers.filter (· ≠ id)
  -- ILLEGAL_PARAMETER_STOP(!obptr) returns where obptr is not NULL
  | .io => workers

/-- `_wp_close_protocol` and `_io_close_protocol`. -/
def closeProtocol (api : Api) (s : State) (poolptr : Nat) (pool : Pool) : State :=
  { s with
    workers := uninitThreads pool.id s.workers api
    pools := Function.update s.pools poolptr none
    destroyed := s.destroyed ++ [pool.id] }

/-- A function of `refs.c` on the pool.  Where it calls `on_closed`, it uses the `ref` after that. -/
def State.onPool (api : Api) (s : State) (poolptr : Nat) (f : RefsT → RefsT × Bool) : State :=
  match s.pools poolptr with
  | none => { s with fault := true }
  | some pool =>
    if (f pool.ref).2 then { closeProtocol api s poolptr pool with fault := true }
    else { s with
      pools := Function.update s.pools poolptr (some { pool with ref := (f pool.ref).1 }) }

/-- `_wp_init` and `_io_init`. -/
def startThreads (s : State) (poolptr : Nat) : State :=
  match s.pools poolptr with
  | none => { s with fault := true }
  | some pool => { s with workers := s.workers ++ [pool.id] }

/-- `unlikely`, which is `!!(x)` to the compiler. -/
def unlikely (x : Int) : Int := if x = 0 then 0 else 1

/-- What `ref_retain` returns in `_wp_safe_retain`; `ref` is the first field of a pool. -/
def retainResult (s : State) (slot : Slot) : Int :=
  match s.pools (s.slot slot) with
  | none => -1
  | some pool => (refRetain pool.ref).1

/-- `_wp_safe_retain`: the state after it and what it returns. -/
def safeRetain (s : State) (slot : Slot) : State × Nat :=
  let poolptr := s.slot slot
  (match s.pools poolptr with
    | none => { s with fault := s.fault || poolptr ≠ 0 }
    | some pool => { s with
      pools := Function.update s.pools poolptr
        (some { pool with ref := (refRetain pool.ref).2 }) },
    if unlikely (retainResult s slot) ≤ 0 then 0 else poolptr)

/-- The next step of a call. -/
def stepOf (api : Api) (s : State) (i : Nat) (ok : Bool) : Pc → Option State
  | .initRun slot poolptr =>
    if ok then some (startThreads (s.move i .done) poolptr)
    else some (State.onPool api { s.move i .done with slot := Function.update s.slot slot 0 }
      poolptr refClose)
  | .uninitCas slot poolptr =>
    let s := { s with shut := Function.update s.shut slot true }
    match s.pools poolptr with
    | none => some { s.move i .done with fault := true }
    | some pool =>
      if (s.slot slot : Int) = pool.word then
        some { s.move i (.uninitClose poolptr) with
          slot := Function.update s.slot slot 0
          removed := s.removed ++ [pool.id] }
      else some { s.move i .done with
        pools := Function.update s.pools poolptr (some (pool.overwritten (s.slot slot))) }
  | .uninitClose poolptr => some ((s.move i .done).onPool api poolptr refClose)
  | .use poolptr _ => some ((s.move i .done).onPool api poolptr fun ref => (refRelease ref).2)
  | .done => none

/-- A step.  Until the compare-and-swap of `wp_init` nobody else knows of the new pool, and where it
fails the pool is freed. -/
def step (api : Api) (s : State) : Act → Option State
  | .init protocol poolptr =>
    match locateProtocol protocol with
    | none => some (s.start .done)
    | some slot =>
      if poolptr = 0 ∨ 2 ^ 64 ≤ poolptr ∨ (s.pools poolptr).isSome then none
      else if s.slot slot = 0 then
        some { s.start (.initRun slot poolptr) with
          slot := Function.update s.slot slot poolptr
          pools := Function.update s.pools poolptr (some ⟨s.next, refInit true⟩)
          next := s.next + 1
          shut := Function.update s.shut slot false }
      else some (s.start .done)
  | .uninit protocol =>
    match locateProtocol protocol with
    | none => some (s.start .done)
    | some slot => some (s.start (.uninitCas slot (s.slot slot)))
  | .retain protocol =>
    match locateProtocol protocol with
    | none => some (s.start .done)
    | some slot =>
      let (s', poolptr) := safeRetain s slot
      some (s'.start (if poolptr = 0 then .done
        else .use poolptr ((s.pools poolptr).elim 0 Pool.id)))
  | .step i ok => s.threads[i]?.bind (stepOf api s i ok)

/-- At the start of the process. -/
def init : State := ⟨fun _ => 0, fun _ => none, 0, [], [], fun _ => false, [], [], false⟩

/-! ## What is asked -/

/-- What is asked of the pools. -/
structure Kept (s : State) : Prop where
  /-- Nobody uses memory that is not there. -/
  fault : s.fault = false
  /-- A retain returns the pool exactly when `ref_retain` succeeds, and `NULL` otherwise. -/
  retain : ∀ slot, (safeRetain s slot).2 = if 0 < retainResult s slot then s.slot slot else 0
  /-- After a `wp_uninit`, until the next `wp_init`, the slot is `NULL` and no retain succeeds. -/
  shut : ∀ slot, s.shut slot = true → s.slot slot = 0 ∧ retainResult s slot ≤ 0
  /-- A pool is there as long as someone uses it. -/
  alive : ∀ poolptr id, .use poolptr id ∈ s.threads →
    (∃ pool, s.pools poolptr = some pool ∧ pool.id = id) ∧ id ∉ s.destroyed
  /-- No pool is destroyed twice. -/
  once : s.destroyed.Nodup
  /-- A pool that was taken out is destroyed when `wp_uninit` has returned and nobody uses it. -/
  ended : ∀ id ∈ s.removed, id ∈ s.destroyed ∨
    (∃ poolptr pool, .uninitClose poolptr ∈ s.threads ∧ s.pools poolptr = some pool ∧
    pool.id = id) ∨
    ∃ poolptr, .use poolptr id ∈ s.threads
  /-- The threads of a pool that was destroyed do not run. -/
  stopped : ∀ id ∈ s.destroyed, id ∉ s.workers

/-- What the surroundings provide: the threads of a new pool can be started, and the users of a pool
are fewer than an `int` counts and than its address, since each has memory of its own. -/
def Room (s : State) : Act → Prop
  | .retain protocol => match locateProtocol protocol with
    | none => True
    | some slot => match s.pools (s.slot slot) with
      | none => True
      | some pool => pool.ref.count < 2147483646 ∧ pool.ref.count + 1 < s.slot slot
  | .step i ok => match s.threads[i]? with
    | some (.initRun _ _) => ok = true
    | _ => True
  | _ => True

/-- No `wp_uninit` comes to its compare-and-swap. -/
def Guarded (s : State) : Act → Prop
  | .step i _ => match s.threads[i]? with
    | some (.uninitCas _ _) => False
    | _ => True
  | _ => True

instance (s : State) (a : Act) : Decidable (Room s a) := by
  unfold Room
  split
  · split
    · infer_instance
    · split
      · infer_instance
      · infer_instance
  · split
    · infer_instance
    · infer_instance
  · infer_instance

instance (s : State) (a : Act) : Decidable (Guarded s a) := by
  unfold Guarded
  split
  · split
    · infer_instance
    · infer_instance
  · infer_instance

/-! ## A pool that was destroyed -/

section Destroyed

variable {api : Api} {s s' : State}

/-- Whoever destroys a pool uses it after that. -/
def Used (s : State) : Prop := s.destroyed ≠ [] → s.fault = true

theorem Used.move (h : Used s) (i : Nat) (pc : Pc) : Used (s.move i pc) := h

theorem Used.onPool (h : Used s) (poolptr : Nat) (f : RefsT → RefsT × Bool) :
    Used (s.onPool api poolptr f) := by
  rw [State.onPool]
  split
  · exact fun _ => rfl
  · split
    · exact fun _ => rfl
    · exact h

theorem Used.startThreads (h : Used s) (poolptr : Nat) : Used (startThreads s poolptr) := by
  rw [Pools.startThreads]
  split
  · exact fun _ => rfl
  · exact h

theorem Used.stepOf (h : Used s) {i : Nat} {ok : Bool} {pc : Pc}
    (hs : stepOf api s i ok pc = some s') : Used s' := by
  cases pc with
  | initRun slot poolptr =>
    rw [Pools.stepOf] at hs
    split at hs
    · cases hs
      exact (h.move i .done).startThreads poolptr
    · cases hs
      exact Used.onPool (s := { s.move i .done with slot := _ }) h poolptr refClose
  | uninitCas slot poolptr =>
    simp only [Pools.stepOf] at hs
    split at hs
    · cases hs
      exact fun _ => rfl
    · split at hs
      · cases hs
        exact h
      · cases hs
        exact h
  | uninitClose poolptr =>
    cases hs
    exact (h.move i .done).onPool poolptr refClose
  | use poolptr id =>
    cases hs
    exact (h.move i .done).onPool poolptr _
  | done => cases hs

theorem Used.step (h : Used s) {a : Act} (hs : step api s a = some s') : Used s' := by
  cases a with
  | init protocol poolptr =>
    simp only [Pools.step] at hs
    split at hs
    · cases hs
      exact h
    · split at hs
      · cases hs
      · split at hs
        · cases hs
          exact h
        · cases hs
          exact h
  | uninit protocol =>
    simp only [Pools.step] at hs
    split at hs
    · cases hs
      exact h
    · cases hs
      exact h
  | retain protocol =>
    simp only [Pools.step, safeRetain] at hs
    split at hs
    · cases hs
      exact h
    · rename_i slot hslot
      cases hs
      split
      · intro hne
        show (s.fault || _) = true
        rw [h hne, Bool.true_or]
      · exact h
  | step i ok =>
    obtain ⟨pc, -, hs⟩ := Option.bind_eq_some_iff.mp hs
    exact h.stepOf hs

/-- **No run destroys a pool without using it after.** -/
theorem destroyed_used {acts : List Act}
    (hrun : Run (fun s a s' => step api s a = some s') init acts s) (h : s.destroyed ≠ []) :
    s.fault = true :=
  hrun.invariant (fun _ _ _ hused hs => Used.step hused hs) (fun hne => absurd rfl hne) h

end Destroyed

/-! ## The invariant -/

/-- The call uses the pool. -/
def Pc.uses (p : Nat) : Pc → Bool
  | .use q _ => q = p
  | _ => false

def State.holders (s : State) (p : Nat) : Nat := s.threads.countP (Pc.uses p)

/-- A pool that is open, and is used by so many. -/
structure Sound (p holders : Nat) (pool : Pool) : Prop where
  status : pool.ref.status = refStatusNormal
  count : pool.ref.count = holders
  fits : pool.ref.count < 2 ^ 31 - 1
  below : pool.ref.count < p

/-- What a call has in its hands. -/
def Holds (s : State) : Pc → Prop
  | .initRun _ p => (s.pools p).isSome
  | .uninitCas slot p => p = 0 ∨ s.slot slot = p
  | .uninitClose _ => False
  | .use p id => ∃ pool, s.pools p = some pool ∧ pool.id = id
  | .done => True

/-- No pool was ever taken out. -/
structure Inv (s : State) : Prop where
  fault : s.fault = false
  null : s.pools 0 = none
  slots : ∀ slot, s.slot slot ≠ 0 → (s.pools (s.slot slot)).isSome
  sound : ∀ p pool, s.pools p = some pool → Sound p (s.holders p) pool
  holds : ∀ pc ∈ s.threads, Holds s pc
  shut : ∀ slot, s.shut slot = false
  removed : s.removed = []
  destroyed : s.destroyed = []

theorem inv_init : Inv init where
  fault := rfl
  null := rfl
  slots := fun slot hslot => absurd rfl hslot
  sound := fun p pool hpool => by cases hpool
  holds := fun pc hpc => by cases hpc
  shut := fun slot => rfl
  removed := rfl
  destroyed := rfl

section Steps

variable {api : Api} {s s' : State} {i p id : Nat} {ok : Bool} {slot : Slot} {pool : Pool}
  {pc pc' : Pc}

theorem holders_move (hi : s.threads[i]? = some pc) (pc' : Pc) (q : Nat) :
    (s.move i pc').holders q + (if pc.uses q then 1 else 0) =
      s.holders q + (if pc'.uses q then 1 else 0) :=
  Lib.countP_set hi (Pc.uses q) pc'

theorem holders_start (s : State) (pc : Pc) (q : Nat) :
    (s.start pc).holders q = s.holders q + if pc.uses q then 1 else 0 := by
  show (s.threads ++ [pc]).countP (Pc.uses q) = s.threads.countP _ + _
  rw [List.countP_append, List.countP_singleton]

/-- A slot that holds no pool is empty. -/
theorem Inv.slot_zero (h : Inv s) (hpool : s.pools (s.slot slot) = none) : s.slot slot = 0 := by
  by_contra hne
  have hsome := h.slots slot hne
  rw [hpool] at hsome
  cases hsome

theorem Inv.ne_zero (h : Inv s) (hpool : s.pools p = some pool) : p ≠ 0 := by
  rintro rfl
  cases h.null.symm.trans hpool

/-- One more user is counted. -/
theorem Sound.refRetain {holders : Nat} (h : Sound p holders pool) :
    refRetain pool.ref =
      (pool.ref.count + 1, { pool.ref with count := pool.ref.count + 1 }) := by
  have hint : int32 (pool.ref.count + 1) = pool.ref.count + 1 := by
    have hcount := h.count
    have hfits := h.fits
    exact Lib.int32_of_inInt32 ⟨by omega, by omega⟩
  rw [Refs.refRetain, if_neg (not_not.mpr h.status), hint]

/-- What `ref_retain` returns says whether there is a pool. -/
theorem Inv.retainResult (h : Inv s) (slot : Slot) :
    (s.pools (s.slot slot) = none ∧ retainResult s slot = -1) ∨
      ∃ pool, s.pools (s.slot slot) = some pool ∧ retainResult s slot = pool.ref.count + 1 ∧
        0 < retainResult s slot := by
  cases hpool : s.pools (s.slot slot) with
  | none => exact .inl ⟨rfl, by rw [Pools.retainResult, hpool]⟩
  | some pool =>
    have hsound := h.sound _ pool hpool
    have hresult : Pools.retainResult s slot = pool.ref.count + 1 := by
      simp only [Pools.retainResult, hpool, hsound.refRetain]
    refine .inr ⟨pool, rfl, hresult, ?_⟩
    have hcount := hsound.count
    omega

/-- What a retain returns. -/
theorem Inv.safeRetain (h : Inv s) (slot : Slot) : (safeRetain s slot).2 = s.slot slot := by
  show (if unlikely (Pools.retainResult s slot) ≤ 0 then 0 else s.slot slot) = s.slot slot
  rcases h.retainResult slot with ⟨hnone, -⟩ | ⟨pool, -, -, hpos⟩
  · rw [h.slot_zero hnone, ite_self]
  · rw [unlikely, if_neg (show Pools.retainResult s slot ≠ 0 by omega)]
    rfl

theorem Inv.kept (h : Inv s) : Kept s where
  fault := h.fault
  retain := by
    intro slot
    rw [h.safeRetain slot]
    rcases h.retainResult slot with ⟨hnone, hresult⟩ | ⟨pool, -, -, hpos⟩
    · rw [h.slot_zero hnone, ite_self]
    · rw [if_pos hpos]
  shut := by
    intro slot hshut
    rw [h.shut slot] at hshut
    cases hshut
  alive := by
    intro p id huse
    refine ⟨h.holds _ huse, ?_⟩
    rw [h.destroyed]
    exact List.not_mem_nil
  once := by
    rw [h.destroyed]
    exact List.nodup_nil
  ended := by
    intro id hid
    rw [h.removed] at hid
    cases hid
  stopped := by
    intro id hid
    rw [h.destroyed] at hid
    cases hid

/-- A new call that changes nothing. -/
theorem Inv.start (h : Inv s) (hpc : Holds s pc) (huses : ∀ q, pc.uses q = false) :
    Inv (s.start pc) := by
  refine ⟨h.fault, h.null, h.slots, ?_, ?_, h.shut, h.removed, h.destroyed⟩
  · intro q pool hq
    rw [holders_start, huses q]
    exact h.sound q pool hq
  · intro x hx
    rcases List.mem_append.mp hx with hx | hx
    · exact h.holds x hx
    · rw [List.mem_singleton.mp hx]
      exact hpc

/-- A call that used nothing returns. -/
theorem Inv.move (h : Inv s) (hi : s.threads[i]? = some pc) (huses : ∀ q, pc.uses q = false) :
    Inv (s.move i .done) := by
  refine ⟨h.fault, h.null, h.slots, ?_, ?_, h.shut, h.removed, h.destroyed⟩
  · intro q pool hq
    have hmove := holders_move hi .done q
    rw [huses q] at hmove
    rw [show (s.move i .done).holders q = s.holders q from hmove]
    exact h.sound q pool hq
  · exact Lib.forall_set h.holds trivial

/-- Nobody uses a pool that is not there. -/
theorem Inv.holders_none (h : Inv s) (hpool : s.pools p = none) : s.holders p = 0 := by
  refine List.countP_eq_zero.mpr fun pc hpc huses => ?_
  cases pc with
  | use q id =>
    cases of_decide_eq_true huses
    obtain ⟨pool, hsome, -⟩ := h.holds _ hpc
    cases hpool.symm.trans hsome
  | _ => cases huses

/-- `wp_init` puts its pool in an empty slot. -/
theorem Inv.init (h : Inv s) (hp : p ≠ 0) (hpool : s.pools p = none) (hslot : s.slot slot = 0) :
    Inv { s.start (.initRun slot p) with
      slot := Function.update s.slot slot p
      pools := Function.update s.pools p (some ⟨s.next, refInit true⟩)
      next := s.next + 1
      shut := Function.update s.shut slot false } := by
  have hkeep : ∀ q pool, s.pools q = some pool →
      Function.update s.pools p (some ⟨s.next, refInit true⟩) q = some pool := by
    intro q pool hq
    rw [Function.update_of_ne, hq]
    rintro rfl
    cases hpool.symm.trans hq
  refine ⟨h.fault, ?_, ?_, ?_, ?_, ?_, h.removed, h.destroyed⟩
  · show Function.update s.pools p _ 0 = none
    rw [Function.update_of_ne hp.symm]
    exact h.null
  · intro slot' hslot'
    show (Function.update s.pools p _ (Function.update s.slot slot p slot')).isSome
    have hslot' : Function.update s.slot slot p slot' ≠ 0 := hslot'
    by_cases hdiff : slot' = slot
    · subst hdiff
      rw [Function.update_self, Function.update_self]
      rfl
    · rw [Function.update_of_ne hdiff] at hslot' ⊢
      obtain ⟨pool, hsome⟩ := Option.isSome_iff_exists.mp (h.slots slot' hslot')
      rw [hkeep _ pool hsome]
      rfl
  · intro q pool hq
    have hq : Function.update s.pools p (some ⟨s.next, refInit true⟩) q = some pool := hq
    show Sound q ((s.start (.initRun slot p)).holders q) pool
    rw [holders_start]
    by_cases hqp : q = p
    · subst hqp
      rw [Function.update_self] at hq
      cases hq
      rw [h.holders_none hpool]
      exact ⟨rfl, rfl, show (0 : Int) < 2 ^ 31 - 1 by decide, show (0 : Int) < q by omega⟩
    · rw [Function.update_of_ne hqp] at hq
      exact h.sound q pool hq
  · intro x hx
    rcases List.mem_append.mp hx with hx | hx
    · have hold := h.holds x hx
      cases x with
      | initRun slot' q =>
        obtain ⟨pool, hsome⟩ := Option.isSome_iff_exists.mp hold
        exact Option.isSome_iff_exists.mpr ⟨pool, hkeep q pool hsome⟩
      | uninitCas slot' q =>
        show q = 0 ∨ Function.update s.slot slot p slot' = q
        by_cases hdiff : slot' = slot
        · -- the slot was empty when it was read
          subst hdiff
          exact .inl (hold.elim id fun heq => heq.symm.trans hslot)
        · rw [Function.update_of_ne hdiff]
          exact hold
      | uninitClose q => exact hold
      | use q id =>
        obtain ⟨pool, hsome, hid⟩ := hold
        exact ⟨pool, hkeep q pool hsome, hid⟩
      | done => trivial
    · cases List.mem_singleton.mp hx
      show (Function.update s.pools p _ p).isSome
      rw [Function.update_self]
      rfl
  · intro slot'
    show Function.update s.shut slot false slot' = false
    by_cases hdiff : slot' = slot
    · subst hdiff
      exact Function.update_self ..
    · rw [Function.update_of_ne hdiff]
      exact h.shut slot'

/-- The reference count of a pool changes with the number of its users. -/
theorem Inv.update (h : Inv s) {pool' : Pool} {threads : List Pc} (hpool : s.pools p = some pool)
    (hid : pool'.id = pool.id)
    (hsound : Sound p (threads.countP (Pc.uses p)) pool')
    (hothers : ∀ q, q ≠ p → threads.countP (Pc.uses q) = s.holders q)
    (hthreads : ∀ pc ∈ threads, Holds s pc) :
    Inv { s with threads := threads, pools := Function.update s.pools p (some pool') } := by
  have hkeep : ∀ q, (s.pools q).isSome → (Function.update s.pools p (some pool') q).isSome := by
    intro q hq
    by_cases hqp : q = p
    · subst hqp
      rw [Function.update_self]
      rfl
    · rwa [Function.update_of_ne hqp]
  refine ⟨h.fault, ?_, fun slot hslot => hkeep _ (h.slots slot hslot), ?_, ?_, h.shut, h.removed,
    h.destroyed⟩
  · show Function.update s.pools p _ 0 = none
    rw [Function.update_of_ne (h.ne_zero hpool).symm]
    exact h.null
  · intro q a hq
    have hq : Function.update s.pools p (some pool') q = some a := hq
    show Sound q (threads.countP (Pc.uses q)) a
    by_cases hqp : q = p
    · subst hqp
      rw [Function.update_self] at hq
      cases hq
      exact hsound
    · rw [Function.update_of_ne hqp] at hq
      rw [hothers q hqp]
      exact h.sound q a hq
  · intro pc hpc
    have hold := hthreads pc hpc
    cases pc with
    | initRun slot q => exact hkeep q hold
    | uninitCas slot q => exact hold
    | uninitClose q => exact hold
    | use q id =>
      show ∃ a, Function.update s.pools p (some pool') q = some a ∧ a.id = id
      obtain ⟨a, ha, hida⟩ := hold
      by_cases hqp : q = p
      · subst hqp
        cases hpool.symm.trans ha
        exact ⟨pool', Function.update_self .., hid.trans hida⟩
      · exact ⟨a, by rw [Function.update_of_ne hqp, ha], hida⟩
    | done => trivial

/-- `_wp_safe_retain`. -/
theorem Inv.retain (h : Inv s) {protocol : Int} (hslot : locateProtocol protocol = some slot)
    (hroom : Room s (.retain protocol)) :
    Inv ((Pools.safeRetain s slot).1.start (if (Pools.safeRetain s slot).2 = 0 then .done
      else .use (Pools.safeRetain s slot).2 ((s.pools (Pools.safeRetain s slot).2).elim 0
        Pool.id))) := by
  rw [h.safeRetain slot]
  cases hpool : s.pools (s.slot slot) with
  | none =>
    have hzero : decide (s.slot slot ≠ 0) = false := decide_eq_false (not_not.mpr (h.slot_zero hpool))
    have hsame : (Pools.safeRetain s slot).1 = s := by
      simp only [Pools.safeRetain, hpool, hzero, Bool.or_false]
    rw [hsame, if_pos (h.slot_zero hpool)]
    exact h.start trivial fun _ => rfl
  | some pool =>
    have hsound := h.sound _ pool hpool
    have hstate : (Pools.safeRetain s slot).1 = { s with
        pools := Function.update s.pools (s.slot slot)
          (some { pool with ref := { pool.ref with count := pool.ref.count + 1 } }) } := by
      simp only [Pools.safeRetain, hpool, hsound.refRetain]
    simp only [Room, hslot, hpool] at hroom
    rw [hstate, if_neg (h.ne_zero hpool)]
    have hid : ({ pool with ref := { pool.ref with count := pool.ref.count + 1 } } : Pool).id =
      pool.id := rfl
    refine h.update hpool hid ⟨hsound.status, ?_, ?_, hroom.2⟩ ?_ ?_
    · rw [List.countP_append, List.countP_singleton,
        if_pos (show Pc.uses (s.slot slot) (.use (s.slot slot) _) = true from decide_eq_true rfl)]
      have hcount := hsound.count
      rw [State.holders] at hcount
      show pool.ref.count + 1 = ((s.threads.countP (Pc.uses (s.slot slot)) + 1 : Nat) : Int)
      omega
    · show pool.ref.count + 1 < 2 ^ 31 - 1
      omega
    · intro q hq
      rw [List.countP_append, List.countP_singleton,
        if_neg (show ¬Pc.uses q (.use (s.slot slot) _) = true by simpa [Pc.uses] using hq.symm)]
      rfl
    · intro x hx
      rcases List.mem_append.mp hx with hx | hx
      · exact h.holds x hx
      · rw [List.mem_singleton.mp hx]
        exact ⟨pool, hpool, rfl⟩

/-- `_wp_safe_release`. -/
theorem Inv.release (h : Inv s) (hi : s.threads[i]? = some (.use p id)) :
    Inv ((s.move i .done).onPool api p fun ref => (refRelease ref).2) := by
  obtain ⟨pool, hpool, -⟩ := h.holds _ (List.mem_of_getElem? hi)
  have hsound := h.sound p pool hpool
  have hmove := holders_move hi .done
  have hone := hmove p
  rw [if_pos (show Pc.uses p (.use p id) = true from decide_eq_true rfl),
    if_neg (show ¬Pc.uses p .done = true from Bool.false_ne_true)] at hone
  have hcount := hsound.count
  have hrelease : (refRelease pool.ref).2 =
      ({ pool.ref with count := pool.ref.count - 1 }, false) := by
    have hwait : pool.ref.status ≠ Refs.refStatusClosewait := by
      rw [hsound.status]
      decide
    rw [refRelease, if_neg (by rw [hsound.status]; decide), if_neg (by omega)]
    simp [hwait]
  have hsame : (s.move i .done).pools p = some pool := hpool
  simp only [State.onPool, hsame, hrelease, Bool.false_eq_true, if_false]
  have hid : ({ pool with ref := { pool.ref with count := pool.ref.count - 1 } } : Pool).id =
    pool.id := rfl
  refine h.update hpool hid ⟨hsound.status, ?_, ?_, ?_⟩ ?_ ?_
  · show pool.ref.count - 1 = ((s.move i .done).holders p : Int)
    omega
  · have hfits := hsound.fits
    show pool.ref.count - 1 < 2 ^ 31 - 1
    omega
  · have hbelow := hsound.below
    show pool.ref.count - 1 < p
    omega
  · intro q hq
    have hother := hmove q
    rw [if_neg (show ¬Pc.uses q (.use p id) = true by simpa [Pc.uses] using hq.symm),
      if_neg (show ¬Pc.uses q .done = true from Bool.false_ne_true)] at hother
    exact hother
  · exact Lib.forall_set h.holds trivial

/-- The threads of the pool are started. -/
theorem Inv.startThreads (h : Inv s) (hi : s.threads[i]? = some (.initRun slot p)) :
    Inv (startThreads (s.move i .done) p) := by
  obtain ⟨pool, hpool⟩ := Option.isSome_iff_exists.mp (h.holds _ (List.mem_of_getElem? hi))
  have hsame : (s.move i .done).pools p = some pool := hpool
  have hmove := h.move hi fun _ => rfl
  simp only [Pools.startThreads, hsame]
  exact ⟨hmove.fault, hmove.null, hmove.slots, hmove.sound, hmove.holds, hmove.shut, hmove.removed,
    hmove.destroyed⟩

/-- **Every step keeps the invariant** in which no `wp_uninit` comes to its compare-and-swap. -/
theorem Inv.step (h : Inv s) {a : Act} (hroom : Room s a) (hguard : Guarded s a)
    (hs : step api s a = some s') : Inv s' := by
  cases a with
  | init protocol poolptr =>
    simp only [Pools.step] at hs
    split at hs
    · cases hs
      exact h.start trivial fun _ => rfl
    · rename_i slot hslot
      split at hs
      · cases hs
      · rename_i hptr
        obtain ⟨hne, -, hnone⟩ := not_or.mp hptr |>.imp_right not_or.mp
        split at hs
        · rename_i hzero
          cases hs
          exact h.init hne (by simpa using hnone) hzero
        · cases hs
          exact h.start trivial fun _ => rfl
  | uninit protocol =>
    simp only [Pools.step] at hs
    split at hs
    · cases hs
      exact h.start trivial fun _ => rfl
    · cases hs
      exact h.start (.inr rfl) fun _ => rfl
  | retain protocol =>
    simp only [Pools.step] at hs
    split at hs
    · cases hs
      exact h.start trivial fun _ => rfl
    · rename_i slot hslot
      cases hs
      exact h.retain hslot hroom
  | step i ok =>
    obtain ⟨pc, hi, hs⟩ := Option.bind_eq_some_iff.mp hs
    simp only [Room, hi] at hroom
    simp only [Guarded, hi] at hguard
    cases pc with
    | initRun slot p =>
      rw [stepOf, if_pos hroom] at hs
      cases hs
      exact h.startThreads hi
    | uninitCas slot p => exact absurd hguard id
    | uninitClose p => exact absurd (h.holds _ (List.mem_of_getElem? hi)) id
    | use p id =>
      cases hs
      exact h.release hi
    | done => cases hs

/-- An open pool does not begin with its address. -/
theorem Sound.word_ne {holders : Nat} (h : Sound p holders pool) : (p : Int) ≠ pool.word := by
  have hcount := h.count
  have hfits := h.fits
  have hbelow := h.below
  rw [Pool.word, h.status, show refStatusNormal = 0 from rfl]
  omega

/-- A `wp_uninit` that comes to its compare-and-swap uses `NULL`, or leaves the pool in its slot. -/
theorem Inv.uninitCas (h : Inv s) (hi : s.threads[i]? = some (.uninitCas slot p))
    (hs : stepOf api s i ok (.uninitCas slot p) = some s') : ¬Kept s' := by
  intro hkept
  simp only [stepOf] at hs
  cases hpool : s.pools p with
  | none =>
    rw [hpool] at hs
    cases hs
    cases hkept.fault
  | some pool =>
    have hslot : s.slot slot = p := (h.holds _ (List.mem_of_getElem? hi)).resolve_left
      (h.ne_zero hpool)
    simp only [hpool, hslot] at hs
    rw [if_neg (h.sound p pool hpool).word_ne] at hs
    cases hs
    have hshut := (hkept.shut slot (Function.update_self ..)).1
    exact h.ne_zero hpool (hslot.symm.trans hshut)

theorem Inv.guarded (h : Inv s) {a : Act} (hs : Pools.step api s a = some s') (hkept : Kept s') :
    Guarded s a := by
  cases a with
  | step i ok =>
    obtain ⟨pc, hi, hs⟩ := Option.bind_eq_some_iff.mp hs
    simp only [Guarded, hi]
    cases pc with
    | uninitCas slot p => exact absurd hkept (h.uninitCas hi hs)
    | _ => trivial
  | _ => trivial

end Steps

/-- **The pools are kept exactly as long as no `wp_uninit` comes to its compare-and-swap.** -/
theorem pools_iff (api : Api) {acts : List Act} (hroom : Each (step api) Room init acts) :
    Along (step api) Kept init acts ↔ Each (step api) Guarded init acts :=
  Lib.along_iff_each_of (I := Inv) (fun _ h => h.kept)
    (fun _ _ _ h hroom hguard hs => h.step hroom hguard hs)
    (fun _ _ _ h hs hkept => h.guarded hs hkept) acts inv_init hroom

/-- The pools of both protocols, one of them in use; a `wp_uninit` has not come far. -/
theorem pools_iff_two : Along (step .wp) Kept init
    [.init 6 93824992231424, .retain 17, .step 0 true, .init 17 93824992235520, .retain 6,
      .uninit 6, .step 2 true, .retain 17, .step 3 true] :=
  (pools_iff .wp (by decide)).mpr (by decide)

/-- A pool is put in its slot and closed: it is still there, its reference count and status are
parts of its address, and a retain returns it although `ref_retain` fails.  A `wp_uninit` of an empty
slot uses `NULL`, and a `wp_init` whose thread cannot be started uses the pool that it has freed. -/
theorem uninit_misses :
    (∃ s, Run (fun s a s' => step .wp s a = some s') init
      [.init 6 93824992231424, .step 0 true, .uninit 6, .step 1 true] s ∧
      s.threads = [.done, .done] ∧ s.slot .tcp = 93824992231424 ∧ s.destroyed = [] ∧
      retainResult s .tcp = -1 ∧ (safeRetain s .tcp).2 = 93824992231424 ∧ ¬Kept s) ∧
    (∃ s, Run (fun s a s' => step .wp s a = some s') init [.uninit 6, .step 0 true] s ∧
      s.fault = true) ∧
    ∃ s, Run (fun s a s' => step .wp s a = some s') init
      [.init 6 93824992231424, .step 0 false] s ∧ s.destroyed = [0] ∧ s.fault = true := by
  have hrun : ∃ s, Run (fun s a s' => step .wp s a = some s') init
      [.init 6 93824992231424, .step 0 true, .uninit 6, .step 1 true] s ∧
      s.threads = [.done, .done] ∧ s.slot .tcp = 93824992231424 ∧ s.destroyed = [] ∧
      retainResult s .tcp = -1 ∧ (safeRetain s .tcp).2 = 93824992231424 :=
    ⟨_, .cons rfl (.cons rfl (.cons rfl (.cons rfl (.nil _)))), rfl, rfl, rfl, rfl, rfl⟩
  obtain ⟨s, hrun, hthreads, hslot, hdestroyed, hresult, hretain⟩ := hrun
  refine ⟨⟨s, hrun, hthreads, hslot, hdestroyed, hresult, hretain, fun hkept => ?_⟩,
    ⟨_, .cons rfl (.cons rfl (.nil _)), rfl⟩, ⟨_, .cons rfl (.cons rfl (.nil _)), rfl, rfl⟩⟩
  have hnull := hkept.retain .tcp
  rw [hresult, hretain, if_neg (by decide)] at hnull
  cases hnull

end Pools

end LibNax
