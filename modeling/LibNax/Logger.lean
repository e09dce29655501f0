import LibNax.Lib.Pool
import LibNax.Lib.Run

/-!
# The asynchronous log

A writer takes a node from the idle list, fills it, and puts it at the end of the busy list.  A
flusher looks at the first node of the busy list, prints it with the lock released, and only then
takes it out of the list: another flusher may look at the same node in between.

* `State`, `Act` and `step` — `log_save` and `log_flush`.  What is done under the lock is one step.
* `Guarded` — a flusher looks at a node only when no other one has a node.
* `Kept` — the records are printed once and in order, and the nodes and the counter are in order.
* `log_kept` — every run in which the flushers take turns.
-/

set_option autoImplicit false

namespace LibNax

namespace Logger

open Lib (Run)

/-! ## The callers -/

variable {ρ : Type}

/-- `MAXIMUM_LOGSAVE_COUNT`. -/
def maximumLogsaveCount : Nat := 500

/-- Where a call stands. -/
inductive Pc (ρ : Type) where
  /-- `log_save`, before it counts itself. -/
  | save (record : ρ)
  /-- `log_save`, before it takes back the count and returns. -/
  | drop
  /-- `log_save`, before `_get_log_cache`. -/
  | get (record : ρ)
  /-- `log_save`, before the node is filled. -/
  | fill (record : ρ) (node : Nat)
  /-- `log_save`, before the node is put in the busy list. -/
  | enqueue (record : ρ) (node : Nat)
  /-- `log_flush`, before it looks at the busy list. -/
  | look
  /-- `log_flush`, before `_print_log_context`. -/
  | print (node : Nat)
  /-- `log_flush`, before `_recycle_log_cache`. -/
  | recycle (node : Nat)
  /-- `log_flush`, before it takes back the count. -/
  | sub
  /-- Returned. -/
  | done
  deriving Repr, DecidableEq

/-- `struct log_async_context` with the records in the nodes, the calls, the records that were put
in the busy list, and what was printed. -/
structure State (ρ : Type) where
  pending : Int
  idle : List Nat
  busy : List Nat
  content : Nat → Option ρ
  callers : List (Pc ρ)
  admitted : List ρ
  printed : List (Option ρ)

/-- A new call, or the next step of one. -/
inductive Act (ρ : Type) where
  | logSave (record : ρ)
  | logFlush
  | step (i : Nat)
  deriving Repr, DecidableEq

/-- The call moves. -/
def State.move (s : State ρ) (i : Nat) (pc : Pc ρ) : State ρ :=
    { s with callers := s.callers.set i pc }

/-- The next step of a call.  `list_del_init` takes a node out of the list that it is in, if it is
in one. -/
def stepOf (s : State ρ) (i : Nat) : Pc ρ → Option (State ρ)
  | .save record =>
    let pending := s.pending + 1
    some { s.move i (if pending ≥ maximumLogsaveCount then .drop else .get record) with pending }
  | .drop => some { s.move i .done with pending := s.pending - 1 }
  | .get record =>
    match s.idle with
    | [] => some (s.move i .done)
    | node :: idle => some { s.move i (.fill record node) with idle }
  | .fill record node =>
    some { s.move i (.enqueue record node) with
      content := Function.update s.content node (some record) }
  | .enqueue record node =>
    some { s.move i .done with busy := s.busy ++ [node], admitted := s.admitted ++ [record] }
  | .look =>
    match s.busy with
    | [] => some (s.move i .done)
    | node :: _ => some (s.move i (.print node))
  | .print node => some { s.move i (.recycle node) with printed := s.printed ++ [s.content node] }
  | .recycle node =>
    some { s.move i .sub with idle := s.idle.erase node ++ [node], busy := s.busy.erase node }
  | .sub => some { s.move i .look with pending := s.pending - 1 }
  | .done => none

/-- A step. -/
def step (s : State ρ) : Act ρ → Option (State ρ)
  | .logSave record => some { s with callers := s.callers ++ [.save record] }
  | .logFlush => some { s with callers := s.callers ++ [.look] }
  | .step i => s.callers[i]?.bind (stepOf s i)

/-- After `_init_log_async_pattern`. -/
def init (ρ : Type) : State ρ := ⟨0, List.range maximumLogsaveCount, [], fun _ => none, [], [], []⟩

/-! ## What is asked -/

/-- The call has a node in its hands, which is in no list. -/
def Pc.held : Pc ρ → List Nat
  | .fill _ node => [node]
  | .enqueue _ node => [node]
  | _ => []

def Pc.isDrop : Pc ρ → Bool
  | .drop => true
  | _ => false

def Pc.isGet : Pc ρ → Bool
  | .get _ => true
  | _ => false

def Pc.isSub : Pc ρ → Bool
  | .sub => true
  | _ => false

def Pc.isPrint : Pc ρ → Bool
  | .print _ => true
  | _ => false

def Pc.isRecycle : Pc ρ → Bool
  | .recycle _ => true
  | _ => false

/-- The call prints the node or gives it back. -/
def Pc.Flushes (node : Nat) (pc : Pc ρ) : Prop := pc = .print node ∨ pc = .recycle node

/-- A flusher looks at a node only when no other one prints a node or gives one back. -/
def Guarded (s : State ρ) : Act ρ → Prop
  | .step i => match s.callers[i]? with
    | some .look => s.busy = [] ∨ s.callers.countP Pc.isPrint + s.callers.countP Pc.isRecycle = 0
    | _ => True
  | _ => True

/-- A step in which the flushers take turns. -/
def GuardedStep (s : State ρ) (a : Act ρ) (s' : State ρ) : Prop := Guarded s a ∧ step s a = some s'

/-- What is asked of the log. -/
structure Kept (s : State ρ) : Prop where
  /-- What was printed was put in the busy list, in this order. -/
  order : s.printed <+: s.admitted.map some
  /-- What was not printed is still there. -/
  rest : (∀ pc ∈ s.callers, pc.isRecycle = false) →
    s.admitted.map some = s.printed ++ s.busy.map s.content
  /-- No node is in the hands of a writer while a flusher uses it. -/
  apart : ∀ pc ∈ s.callers, ∀ node ∈ pc.held, ∀ pc' ∈ s.callers, ¬pc'.Flushes node
  /-- Every node is in one place. -/
  nodes : (s.idle ++ (s.busy ++ s.callers.flatMap Pc.held)).Perm (List.range maximumLogsaveCount)
  /-- The counter is the number of nodes that are not idle, when no call is in progress. -/
  pending : (∀ pc ∈ s.callers, pc = .done) → s.pending = maximumLogsaveCount - s.idle.length

/-! ## The invariant -/

/-- The nodes whose records are still to be printed. -/
def State.unprinted (s : State ρ) : List Nat := s.busy.drop (s.callers.countP Pc.isRecycle)

structure Inv (s : State ρ) : Prop where
  nodes : (s.idle ++ (s.busy ++ s.callers.flatMap Pc.held)).Perm (List.range maximumLogsaveCount)
  /-- At most one flusher has a node, and it is the first one of the busy list. -/
  one : s.callers.countP Pc.isPrint + s.callers.countP Pc.isRecycle ≤ 1
  first : ∀ pc ∈ s.callers, ∀ node, pc.Flushes node → s.busy.head? = some node
  filled : ∀ pc ∈ s.callers, ∀ record node, pc = .enqueue record node → s.content node = some record
  flow : s.admitted.map some = s.printed ++ s.unprinted.map s.content
  count : s.pending = maximumLogsaveCount - s.idle.length + s.callers.countP Pc.isDrop +
    s.callers.countP Pc.isGet + s.callers.countP Pc.isSub
  /-- There is a node for every writer that has passed the test. -/
  room : s.callers.countP Pc.isGet < s.idle.length

section Steps

variable {s : State ρ} {i node : Nat} {record : ρ} {a b : Pc ρ}

theorem inv_init : Inv (init ρ) where
  nodes := by simp [init]
  one := Nat.zero_le 1
  first := fun pc hpc => by cases hpc
  filled := fun pc hpc => by cases hpc
  flow := rfl
  count := by simp [init]
  room := by simp [init, maximumLogsaveCount]

/-- The numbers of calls at the places that count. -/
theorem tally (hi : s.callers[i]? = some a) (b : Pc ρ) :
    ((s.callers.set i b).countP Pc.isDrop + (if a.isDrop then 1 else 0) =
        s.callers.countP Pc.isDrop + (if b.isDrop then 1 else 0)) ∧
      ((s.callers.set i b).countP Pc.isGet + (if a.isGet then 1 else 0) =
        s.callers.countP Pc.isGet + (if b.isGet then 1 else 0)) ∧
      ((s.callers.set i b).countP Pc.isSub + (if a.isSub then 1 else 0) =
        s.callers.countP Pc.isSub + (if b.isSub then 1 else 0)) ∧
      ((s.callers.set i b).countP Pc.isPrint + (if a.isPrint then 1 else 0) =
        s.callers.countP Pc.isPrint + (if b.isPrint then 1 else 0)) ∧
      (s.callers.set i b).countP Pc.isRecycle + (if a.isRecycle then 1 else 0) =
        s.callers.countP Pc.isRecycle + (if b.isRecycle then 1 else 0) :=
  ⟨Lib.countP_set hi _ b, Lib.countP_set hi _ b, Lib.countP_set hi _ b, Lib.countP_set hi _ b,
    Lib.countP_set hi _ b⟩

theorem Inv.nodup (h : Inv s) : (s.idle ++ (s.busy ++ s.callers.flatMap Pc.held)).Nodup :=
  h.nodes.nodup_iff.mpr List.nodup_range

/-- A node in the hands of a call is in no list. -/
theorem Inv.notMem_of_held (h : Inv s) (ha : a ∈ s.callers) (hnode : node ∈ a.held) :
    node ∉ s.idle ∧ node ∉ s.busy := by
  have hmem : node ∈ s.callers.flatMap Pc.held := List.mem_flatMap.mpr ⟨a, ha, hnode⟩
  obtain ⟨-, hrest, hidle⟩ := List.nodup_append.mp h.nodup
  obtain ⟨-, -, hbusy⟩ := List.nodup_append.mp hrest
  exact ⟨fun hc => hidle node hc node (List.mem_append_right _ hmem) rfl,
    fun hc => hbusy node hc node hmem rfl⟩

/-- A call moves without a node and without a count. -/
theorem Inv.move (h : Inv s) (hi : s.callers[i]? = some a) (ha : a.held = [])
    (hb : b.held = []) (hfirst : ∀ node, b.Flushes node → s.busy.head? = some node)
    (hone : (s.callers.set i b).countP Pc.isPrint + (s.callers.set i b).countP Pc.isRecycle ≤ 1)
    (hrecycle : a.isRecycle = b.isRecycle) {pending : Int}
    (hcount : pending = maximumLogsaveCount - s.idle.length + (s.callers.set i b).countP Pc.isDrop +
      (s.callers.set i b).countP Pc.isGet + (s.callers.set i b).countP Pc.isSub)
    (hroom : (s.callers.set i b).countP Pc.isGet < s.idle.length) :
    Inv { s.move i b with pending } := by
  have hheld : ((s.callers.set i b).flatMap Pc.held).Perm (s.callers.flatMap Pc.held) := by
    have := Lib.flatMap_set_perm hi Pc.held b
    rwa [ha, hb] at this
  have htally := (tally hi b).2.2.2.2
  rw [hrecycle] at htally
  refine ⟨?_, hone, ?_, ?_, ?_, hcount, hroom⟩
  · exact ((hheld.append_left _).append_left _).trans h.nodes
  · exact Lib.forall_set h.first hfirst
  · refine Lib.forall_set h.filled fun record node heq => ?_
    rw [heq] at hb
    cases hb
  · show s.admitted.map some = s.printed ++
      (s.busy.drop ((s.callers.set i b).countP Pc.isRecycle)).map s.content
    rw [Nat.add_right_cancel htally]
    exact h.flow

/-- A call moves that is at no node and goes to none. -/
theorem Inv.pass (h : Inv s) (hi : s.callers[i]? = some a) (b : Pc ρ)
    (ha : a.held = [] ∧ a.isPrint = false ∧ a.isRecycle = false)
    (hb : b.held = [] ∧ b.isPrint = false ∧ b.isRecycle = false) {pending : Int}
    (hcount : pending = maximumLogsaveCount - s.idle.length + (s.callers.set i b).countP Pc.isDrop +
      (s.callers.set i b).countP Pc.isGet + (s.callers.set i b).countP Pc.isSub)
    (hroom : (s.callers.set i b).countP Pc.isGet < s.idle.length) :
    Inv { s.move i b with pending } := by
  obtain ⟨-, -, -, hprint, hrecycle⟩ := tally hi b
  rw [ha.2.1, hb.2.1] at hprint
  rw [ha.2.2, hb.2.2] at hrecycle
  refine h.move hi ha.1 hb.1 (fun node hf => ?_) ?_ (ha.2.2.trans hb.2.2.symm) hcount hroom
  · rcases hf with rfl | rfl
    · cases hb.2.1
    · cases hb.2.2
  · rw [Nat.add_right_cancel hprint, Nat.add_right_cancel hrecycle]
    exact h.one

/-- A writer that has passed the test gets a node. -/
theorem Inv.get {idle : List Nat} (h : Inv s) (hi : s.callers[i]? = some (.get record))
    (hidle : s.idle = node :: idle) : Inv { s.move i (.fill record node) with idle } := by
  obtain ⟨hdrop, hget, hsub, hprint, hrecycle⟩ := tally hi (.fill record node)
  simp only [Pc.isDrop, Pc.isGet, Pc.isSub, Pc.isPrint, Pc.isRecycle, if_true, Bool.false_eq_true,
    if_false, Nat.add_zero] at hdrop hget hsub hprint hrecycle
  have hcount := h.count
  have hroom := h.room
  rw [hidle, List.length_cons] at hcount hroom
  refine ⟨?_, ?_, ?_, ?_, ?_, ?_, ?_⟩
  · have hheld : ((s.callers.set i (.fill record node)).flatMap Pc.held).Perm
        (node :: s.callers.flatMap Pc.held) := Lib.flatMap_set_perm hi Pc.held (.fill record node)
    have hnodes := h.nodes
    rw [hidle] at hnodes
    refine List.Perm.trans ?_ hnodes
    refine ((hheld.append_left s.busy).append_left idle).trans ?_
    exact (List.perm_middle.append_left idle).trans List.perm_middle
  · show (s.callers.set i _).countP Pc.isPrint + (s.callers.set i _).countP Pc.isRecycle ≤ 1
    rw [hprint, hrecycle]
    exact h.one
  · refine Lib.forall_set h.first fun node' hf => ?_
    rcases hf with hf | hf
    · cases hf
    · cases hf
  · exact Lib.forall_set h.filled fun record' node' heq => (by cases heq)
  · show s.admitted.map some = s.printed ++
        (s.busy.drop ((s.callers.set i _).countP Pc.isRecycle)).map _
    rw [hrecycle]
    exact h.flow
  · show s.pending = maximumLogsaveCount - idle.length + (s.callers.set i _).countP Pc.isDrop +
      (s.callers.set i _).countP Pc.isGet + (s.callers.set i _).countP Pc.isSub
    rw [hdrop, hsub]
    omega
  · show (s.callers.set i _).countP Pc.isGet < idle.length
    omega

/-- A call moves that is not on its way to a node or away from the count. -/
theorem Inv.accounts (h : Inv s) {callers : List (Pc ρ)}
    (hdrop : callers.countP Pc.isDrop = s.callers.countP Pc.isDrop)
    (hget : callers.countP Pc.isGet = s.callers.countP Pc.isGet)
    (hsub : callers.countP Pc.isSub = s.callers.countP Pc.isSub) :
    s.pending = maximumLogsaveCount - s.idle.length + callers.countP Pc.isDrop +
        callers.countP Pc.isGet + callers.countP Pc.isSub ∧
      callers.countP Pc.isGet < s.idle.length := by
  rw [hdrop, hget, hsub]
  exact ⟨h.count, h.room⟩

/-- The node is filled; no one else has it. -/
theorem Inv.fill (h : Inv s) (hi : s.callers[i]? = some (.fill record node)) :
    Inv { s.move i (.enqueue record node) with
      content := Function.update s.content node (some record) } := by
  obtain ⟨hdrop, hget, hsub, hprint, hrecycle⟩ := tally hi (.enqueue record node)
  simp only [Pc.isDrop, Pc.isGet, Pc.isSub, Pc.isPrint, Pc.isRecycle, Bool.false_eq_true,
    if_false, Nat.add_zero] at hdrop hget hsub hprint hrecycle
  obtain ⟨-, hbusy⟩ := h.notMem_of_held (List.mem_of_getElem? hi)
    (show node ∈ (Pc.fill record node).held from List.mem_cons_self)
  refine ⟨?_, ?_, ?_, ?_, ?_, ?_, ?_⟩
  · have hheld : ((s.callers.set i (.enqueue record node)).flatMap Pc.held).Perm
        (s.callers.flatMap Pc.held) :=
      (Lib.flatMap_set_perm hi Pc.held (.enqueue record node)).cons_inv
    exact ((hheld.append_left _).append_left _).trans h.nodes
  · show (s.callers.set i _).countP Pc.isPrint + (s.callers.set i _).countP Pc.isRecycle ≤ 1
    rw [hprint, hrecycle]
    exact h.one
  · refine Lib.forall_set h.first fun node' hf => ?_
    rcases hf with hf | hf
    · cases hf
    · cases hf
  · -- another writer has another node
    obtain ⟨before, after, hsplit, hset⟩ := Lib.exists_split hi
    show ∀ pc ∈ s.callers.set i (.enqueue record node), _
    rw [hset]
    intro pc hpc record' node' heq
    subst heq
    show Function.update s.content node (some record) node' = some record'
    have hother : Pc.enqueue record' node' ∈ before ∨ Pc.enqueue record' node' ∈ after →
        Function.update s.content node (some record) node' = some record' := by
      intro hmem
      have hcallers : Pc.enqueue record' node' ∈ s.callers := by
        rw [hsplit]
        rcases hmem with hmem | hmem
        · exact List.mem_append_left _ hmem
        · exact List.mem_append_right _ (List.mem_cons_of_mem _ hmem)
      have hne : node' ≠ node := by
        rintro rfl
        obtain ⟨-, hrest, -⟩ := List.nodup_append.mp h.nodup
        obtain ⟨-, hnodup, -⟩ := List.nodup_append.mp hrest
        rw [hsplit, List.flatMap_append, List.flatMap_cons] at hnodup
        obtain ⟨-, hright, hleft⟩ := List.nodup_append.mp hnodup
        rcases hmem with hmem | hmem
        · exact hleft node' (List.mem_flatMap.mpr ⟨_, hmem, List.mem_cons_self⟩) node'
            (List.mem_append_left _ List.mem_cons_self) rfl
        · exact (List.nodup_append.mp hright).2.2 node' List.mem_cons_self node'
            (List.mem_flatMap.mpr ⟨_, hmem, List.mem_cons_self⟩) rfl
      rw [Function.update_of_ne hne]
      exact h.filled _ hcallers record' node' rfl
    rcases List.mem_append.mp hpc with hpc | hpc
    · exact hother (.inl hpc)
    rcases List.mem_cons.mp hpc with heq | hpc
    · cases heq
      rw [Function.update_self]
    · exact hother (.inr hpc)
  · show s.admitted.map some = s.printed ++
      (s.busy.drop ((s.callers.set i _).countP Pc.isRecycle)).map (Function.update s.content node _)
    rw [hrecycle]
    refine h.flow.trans (congrArg _ (List.map_congr_left fun node' hmem => ?_))
    rw [Function.update_of_ne]
    rintro rfl
    exact hbusy (List.mem_of_mem_drop hmem)
  · exact (h.accounts hdrop hget hsub).1
  · exact (h.accounts hdrop hget hsub).2

/-- Where a flusher has a node the busy list is not empty. -/
theorem Inv.countP_isRecycle_le (h : Inv s) : s.callers.countP Pc.isRecycle ≤ s.busy.length := by
  have hone := h.one
  by_cases hzero : s.callers.countP Pc.isRecycle = 0
  · omega
  · obtain ⟨pc, hpc, hrecycle⟩ := List.countP_pos_iff.mp (Nat.pos_of_ne_zero hzero)
    cases pc with
    | recycle node =>
      have hhead := h.first _ hpc node (.inr rfl)
      have : 0 < s.busy.length := by
        cases hbusy : s.busy with
        | nil => rw [hbusy] at hhead; cases hhead
        | cons node' busy => exact Nat.succ_pos _
      omega
    | _ => cases hrecycle

/-- The node is put in the busy list. -/
theorem Inv.enqueue (h : Inv s) (hi : s.callers[i]? = some (.enqueue record node)) :
    Inv { s.move i .done with busy := s.busy ++ [node], admitted := s.admitted ++ [record] } := by
  obtain ⟨hdrop, hget, hsub, hprint, hrecycle⟩ := tally hi .done
  simp only [Pc.isDrop, Pc.isGet, Pc.isSub, Pc.isPrint, Pc.isRecycle, Bool.false_eq_true,
    if_false, Nat.add_zero] at hdrop hget hsub hprint hrecycle
  have hcontent := h.filled _ (List.mem_of_getElem? hi) record node rfl
  refine ⟨?_, ?_, ?_, ?_, ?_, ?_, ?_⟩
  · have hheld : (node :: (s.callers.set i .done).flatMap Pc.held).Perm
        (s.callers.flatMap Pc.held) :=
      Lib.flatMap_set_perm hi Pc.held .done
    refine List.Perm.trans (List.Perm.append_left _ ?_) h.nodes
    show (s.busy ++ [node] ++ (s.callers.set i .done).flatMap Pc.held).Perm _
    rw [List.append_assoc]
    exact hheld.append_left s.busy
  · show (s.callers.set i _).countP Pc.isPrint + (s.callers.set i _).countP Pc.isRecycle ≤ 1
    rw [hprint, hrecycle]
    exact h.one
  · refine Lib.forall_set (fun pc hpc node' hf => ?_) fun node' hf => ?_
    · show (s.busy ++ [node]).head? = some node'
      rw [List.head?_append, h.first pc hpc node' hf]
      rfl
    · rcases hf with hf | hf
      · cases hf
      · cases hf
  · exact Lib.forall_set h.filled fun record' node' heq => (by cases heq)
  · show (s.admitted ++ [record]).map some = s.printed ++
      ((s.busy ++ [node]).drop ((s.callers.set i _).countP Pc.isRecycle)).map s.content
    rw [hrecycle, List.drop_append_of_le_length h.countP_isRecycle_le, List.map_append,
      List.map_append, ← List.append_assoc, ← State.unprinted, ← h.flow, List.map_singleton,
      List.map_singleton, hcontent]
  · exact (h.accounts hdrop hget hsub).1
  · exact (h.accounts hdrop hget hsub).2

/-- The first node of the busy list is printed. -/
theorem Inv.print (h : Inv s) (hi : s.callers[i]? = some (.print node)) :
    Inv { s.move i (.recycle node) with printed := s.printed ++ [s.content node] } := by
  obtain ⟨hdrop, hget, hsub, hprint, hrecycle⟩ := tally hi (.recycle node)
  simp only [Pc.isDrop, Pc.isGet, Pc.isSub, Pc.isPrint, Pc.isRecycle, if_true, Bool.false_eq_true,
    if_false, Nat.add_zero] at hdrop hget hsub hprint hrecycle
  have hone := h.one
  have hhead := h.first _ (List.mem_of_getElem? hi) node (.inl rfl)
  refine ⟨?_, ?_, ?_, ?_, ?_, ?_, ?_⟩
  · have hheld : ((s.callers.set i (.recycle node)).flatMap Pc.held).Perm
        (s.callers.flatMap Pc.held) :=
      Lib.flatMap_set_perm hi Pc.held (.recycle node)
    exact ((hheld.append_left _).append_left _).trans h.nodes
  · show (s.callers.set i _).countP Pc.isPrint + (s.callers.set i _).countP Pc.isRecycle ≤ 1
    omega
  · refine Lib.forall_set h.first fun node' hf => ?_
    rcases hf with hf | hf
    · cases hf
    · cases hf
      exact hhead
  · exact Lib.forall_set h.filled fun record' node' heq => (by cases heq)
  · show s.admitted.map some = s.printed ++ [s.content node] ++
      (s.busy.drop ((s.callers.set i _).countP Pc.isRecycle)).map s.content
    have hzero : s.callers.countP Pc.isRecycle = 0 := by omega
    have hflow := h.flow
    rw [State.unprinted, hzero, List.drop_zero] at hflow
    rw [hrecycle, hzero, hflow, List.append_assoc]
    cases hbusy : s.busy with
    | nil =>
      rw [hbusy] at hhead
      cases hhead
    | cons node' busy =>
      rw [hbusy] at hhead
      cases hhead
      rfl
  · exact (h.accounts hdrop hget hsub).1
  · exact (h.accounts hdrop hget hsub).2

/-- The node goes back to the idle list. -/
theorem Inv.recycle (h : Inv s) (hi : s.callers[i]? = some (.recycle node)) :
    Inv { s.move i .sub with idle := s.idle.erase node ++ [node], busy := s.busy.erase node } := by
  obtain ⟨hdrop, hget, hsub, hprint, hrecycle⟩ := tally hi .sub
  simp only [Pc.isDrop, Pc.isGet, Pc.isSub, Pc.isPrint, Pc.isRecycle, if_true, Bool.false_eq_true,
    if_false, Nat.add_zero] at hdrop hget hsub hprint hrecycle
  have hone := h.one
  have hcount := h.count
  have hroom := h.room
  have hhead := h.first _ (List.mem_of_getElem? hi) node (.inr rfl)
  obtain ⟨busy, hbusy⟩ : ∃ busy, s.busy = node :: busy := by
    cases hb : s.busy with
    | nil =>
      rw [hb] at hhead
      cases hhead
    | cons node' busy =>
      rw [hb] at hhead
      cases hhead
      exact ⟨busy, rfl⟩
  have hidle : node ∉ s.idle := fun hc =>
    (List.nodup_append.mp h.nodup).2.2 node hc node
      (List.mem_append_left _ (hbusy ▸ List.mem_cons_self)) rfl
  rw [List.erase_of_not_mem hidle, hbusy, List.erase_cons_head]
  refine ⟨?_, ?_, ?_, ?_, ?_, ?_, ?_⟩
  · have hheld : ((s.callers.set i .sub).flatMap Pc.held).Perm (s.callers.flatMap Pc.held) :=
      Lib.flatMap_set_perm hi Pc.held .sub
    have hnodes := h.nodes
    rw [hbusy] at hnodes
    refine List.Perm.trans ?_ hnodes
    show (s.idle ++ [node] ++ (busy ++ (s.callers.set i .sub).flatMap Pc.held)).Perm _
    rw [List.append_assoc]
    exact ((hheld.append_left busy).cons node).append_left s.idle
  · show (s.callers.set i _).countP Pc.isPrint + (s.callers.set i _).countP Pc.isRecycle ≤ 1
    omega
  · -- no one else has a node
    intro pc hpc node' hf
    have hnone : (s.callers.set i .sub).countP Pc.isPrint = 0 ∧
        (s.callers.set i .sub).countP Pc.isRecycle = 0 := by omega
    rcases hf with rfl | rfl
    · exact absurd rfl (List.countP_eq_zero.mp hnone.1 _ hpc)
    · exact absurd rfl (List.countP_eq_zero.mp hnone.2 _ hpc)
  · exact Lib.forall_set h.filled fun record' node' heq => (by cases heq)
  · show s.admitted.map some = s.printed ++
      (busy.drop ((s.callers.set i _).countP Pc.isRecycle)).map s.content
    have hflow := h.flow
    have hold : s.callers.countP Pc.isRecycle = 1 := by omega
    have hnew : (s.callers.set i .sub).countP Pc.isRecycle = 0 := by omega
    rw [State.unprinted, hold, hbusy] at hflow
    rw [hnew]
    exact hflow
  · show s.pending = maximumLogsaveCount - (s.idle ++ [node]).length +
      (s.callers.set i _).countP Pc.isDrop + (s.callers.set i _).countP Pc.isGet +
        (s.callers.set i _).countP Pc.isSub
    rw [hdrop, hget, hsub, List.length_append, List.length_singleton]
    omega
  · show (s.callers.set i _).countP Pc.isGet < (s.idle ++ [node]).length
    rw [hget, List.length_append]
    omega

/-- A new call. -/
theorem Inv.start (h : Inv s) (hb : b = .look ∨ ∃ record, b = .save record) :
    Inv { s with callers := s.callers ++ [b] } := by
  have hcounts : b.held = [] ∧ b.isDrop = false ∧ b.isGet = false ∧ b.isSub = false ∧
      b.isPrint = false ∧ b.isRecycle = false := by
    rcases hb with rfl | ⟨record, rfl⟩
    · exact ⟨rfl, rfl, rfl, rfl, rfl, rfl⟩
    · exact ⟨rfl, rfl, rfl, rfl, rfl, rfl⟩
  obtain ⟨hheld, hdrop, hget, hsub, hprint, hrecycle⟩ := hcounts
  have hcountP : ∀ p : Pc ρ → Bool, p b = false →
      (s.callers ++ [b]).countP p = s.callers.countP p := by
    intro p hp
    rw [List.countP_append, List.countP_singleton, hp]
    rfl
  refine ⟨?_, ?_, ?_, ?_, ?_, ?_, ?_⟩
  · show (s.idle ++ (s.busy ++ (s.callers ++ [b]).flatMap Pc.held)).Perm _
    rw [List.flatMap_append, List.flatMap_singleton, hheld, List.append_nil]
    exact h.nodes
  · show (s.callers ++ [b]).countP Pc.isPrint + (s.callers ++ [b]).countP Pc.isRecycle ≤ 1
    rw [hcountP _ hprint, hcountP _ hrecycle]
    exact h.one
  · intro pc hpc node hf
    rcases List.mem_append.mp hpc with hpc | hpc
    · exact h.first pc hpc node hf
    · cases List.mem_singleton.mp hpc
      rcases hf with rfl | rfl
      · cases hprint
      · cases hrecycle
  · intro pc hpc record node heq
    rcases List.mem_append.mp hpc with hpc | hpc
    · exact h.filled pc hpc record node heq
    · cases List.mem_singleton.mp hpc
      subst heq
      cases hheld
  · show s.admitted.map some = s.printed ++
      (s.busy.drop ((s.callers ++ [b]).countP Pc.isRecycle)).map s.content
    rw [hcountP _ hrecycle]
    exact h.flow
  · show s.pending = maximumLogsaveCount - s.idle.length + (s.callers ++ [b]).countP Pc.isDrop +
      (s.callers ++ [b]).countP Pc.isGet + (s.callers ++ [b]).countP Pc.isSub
    rw [hcountP _ hdrop, hcountP _ hget, hcountP _ hsub]
    exact h.count
  · show (s.callers ++ [b]).countP Pc.isGet < s.idle.length
    rw [hcountP _ hget]
    exact h.room

/-- A step under the lock or outside of it. -/
theorem Inv.stepOf {s' : State ρ} (h : Inv s) (hi : s.callers[i]? = some a)
    (hguard : Guarded s (.step i)) (hstep : stepOf s i a = some s') : Inv s' := by
  have hcount := h.count
  have hroom := h.room
  have hone := h.one
  cases a with
  | save record =>
    cases hstep
    by_cases hfull : s.pending + 1 ≥ maximumLogsaveCount
    · obtain ⟨hdrop, hget, hsub, -⟩ := tally hi .drop
      simp only [Pc.isDrop, Pc.isGet, Pc.isSub, if_true, Bool.false_eq_true, if_false,
        Nat.add_zero] at hdrop hget hsub
      rw [if_pos hfull]
      exact h.pass hi _ ⟨rfl, rfl, rfl⟩ ⟨rfl, rfl, rfl⟩ (by omega) (by omega)
    · obtain ⟨hdrop, hget, hsub, -⟩ := tally hi (.get record)
      simp only [Pc.isDrop, Pc.isGet, Pc.isSub, if_true, Bool.false_eq_true, if_false,
        Nat.add_zero] at hdrop hget hsub
      rw [if_neg hfull]
      exact h.pass hi _ ⟨rfl, rfl, rfl⟩ ⟨rfl, rfl, rfl⟩ (by omega) (by omega)
  | drop =>
    cases hstep
    obtain ⟨hdrop, hget, hsub, -⟩ := tally hi .done
    simp only [Pc.isDrop, Pc.isGet, Pc.isSub, if_true, Bool.false_eq_true, if_false,
      Nat.add_zero] at hdrop hget hsub
    exact h.pass hi _ ⟨rfl, rfl, rfl⟩ ⟨rfl, rfl, rfl⟩ (by omega) (by omega)
  | get record =>
    simp only [Logger.stepOf] at hstep
    cases hidle : s.idle with
    | nil =>
      -- the test has left a node for this writer
      rw [hidle] at hroom
      exact absurd hroom (Nat.not_lt_zero _)
    | cons node idle =>
      rw [hidle] at hstep
      cases hstep
      exact h.get hi hidle
  | fill record node =>
    cases hstep
    exact h.fill hi
  | enqueue record node =>
    cases hstep
    exact h.enqueue hi
  | look =>
    simp only [Logger.stepOf] at hstep
    cases hbusy : s.busy with
    | nil =>
      rw [hbusy] at hstep
      cases hstep
      obtain ⟨hdrop, hget, hsub, -⟩ := tally hi .done
      simp only [Pc.isDrop, Pc.isGet, Pc.isSub, Bool.false_eq_true, if_false,
        Nat.add_zero] at hdrop hget hsub
      exact h.pass hi _ ⟨rfl, rfl, rfl⟩ ⟨rfl, rfl, rfl⟩ (by omega) (by omega)
    | cons node busy =>
      rw [hbusy] at hstep
      cases hstep
      obtain ⟨hdrop, hget, hsub, hprint, hrecycle⟩ := tally hi (.print node)
      simp only [Pc.isDrop, Pc.isGet, Pc.isSub, Pc.isPrint, Pc.isRecycle, if_true,
        Bool.false_eq_true, if_false, Nat.add_zero] at hdrop hget hsub hprint hrecycle
      simp only [Guarded, hi, hbusy] at hguard
      have hnone := hguard.resolve_left (List.cons_ne_nil _ _)
      refine h.move (b := .print node) hi rfl rfl (fun node' hf => ?_) (by omega) rfl (by omega)
        (by omega)
      rcases hf with hf | hf
      · cases hf
        rw [hbusy]
        rfl
      · cases hf
  | print node =>
    cases hstep
    exact h.print hi
  | recycle node =>
    cases hstep
    exact h.recycle hi
  | sub =>
    cases hstep
    obtain ⟨hdrop, hget, hsub, -⟩ := tally hi .look
    simp only [Pc.isDrop, Pc.isGet, Pc.isSub, if_true, Bool.false_eq_true, if_false,
      Nat.add_zero] at hdrop hget hsub
    exact h.pass hi _ ⟨rfl, rfl, rfl⟩ ⟨rfl, rfl, rfl⟩ (by omega) (by omega)
  | done => cases hstep

theorem Inv.step {s' : State ρ} {act : Act ρ} (h : Inv s) (hstep : GuardedStep s act s') :
    Inv s' := by
  obtain ⟨hguard, hstep⟩ := hstep
  cases act with
  | logSave record =>
    cases hstep
    exact h.start (.inr ⟨record, rfl⟩)
  | logFlush =>
    cases hstep
    exact h.start (.inl rfl)
  | step i =>
    obtain ⟨pc, hi, hpc⟩ := Option.bind_eq_some_iff.mp hstep
    exact h.stepOf hi hguard hpc

theorem Inv.kept (h : Inv s) : Kept s where
  order := ⟨_, h.flow.symm⟩
  rest := by
    intro hnone
    have hzero : s.callers.countP Pc.isRecycle = 0 :=
      List.countP_eq_zero.mpr fun pc hpc => by rw [hnone pc hpc]; exact Bool.false_ne_true
    have hflow := h.flow
    rwa [State.unprinted, hzero, List.drop_zero] at hflow
  apart := by
    intro pc hpc node hnode pc' hpc' hf
    have hmem : node ∈ s.busy := List.mem_of_mem_head? (h.first pc' hpc' node hf)
    exact (h.notMem_of_held hpc hnode).2 hmem
  nodes := h.nodes
  pending := by
    intro hdone
    have hzero : ∀ p : Pc ρ → Bool, p .done = false → s.callers.countP p = 0 := fun p hp =>
      List.countP_eq_zero.mpr fun pc hpc => by
        rw [hdone pc hpc, hp]
        exact Bool.false_ne_true
    rw [h.count, hzero _ rfl, hzero _ rfl, hzero _ rfl]
    simp

end Steps

/-! ## The runs -/

/-- In every run in which the flushers take turns the records are printed once and in order, and the
nodes and the counter are in order. -/
theorem log_kept {s : State ρ} {acts : List (Act ρ)} (hrun : Run GuardedStep (init ρ) acts s) :
    Kept s :=
  (hrun.invariant (fun _ _ _ hi hs => hi.step hs) inv_init).kept

theorem init_eq_cons : ∃ idle, init ρ = ⟨0, 0 :: idle, [], fun _ => none, [], [], []⟩ :=
  ⟨(List.range 499).map Nat.succ, by rw [init, maximumLogsaveCount, List.range_succ_eq_map]⟩

/-- A record is saved and flushed. -/
theorem log_kept_one : ∃ s, Run GuardedStep (init Nat)
    [.logSave 7, .step 0, .step 0, .step 0, .step 0,
    .logFlush, .step 1, .step 1, .step 1, .step 1, .step 1] s ∧ s.printed = [some 7] ∧ Kept s := by
  have hrun : ∃ s, Run GuardedStep (init Nat) [.logSave 7, .step 0, .step 0, .step 0, .step 0,
      .logFlush, .step 1, .step 1, .step 1, .step 1, .step 1] s ∧ s.printed = [some 7] := by
    obtain ⟨idle, hinit⟩ := init_eq_cons (ρ := Nat)
    rw [hinit]
    refine ⟨_, .cons ⟨trivial, rfl⟩
      (.cons ⟨trivial, rfl⟩ (.cons ⟨trivial, rfl⟩ (.cons ⟨trivial, rfl⟩
      (.cons ⟨trivial, rfl⟩ (.cons ⟨trivial, rfl⟩ (.cons ⟨.inr rfl, rfl⟩ (.cons ⟨trivial, rfl⟩
      (.cons ⟨trivial, rfl⟩ (.cons ⟨trivial, rfl⟩ (.cons ⟨.inl rfl, rfl⟩ (.nil _))))))))))), rfl⟩
  obtain ⟨s, hrun, hprinted⟩ := hrun
  exact ⟨s, hrun, hprinted, log_kept hrun⟩

/-- Two flushers look at the one node before either gives it back, and the record is printed
twice. -/
theorem log_twice : ∃ s, Run (fun s a s' => step s a = some s') (init Nat)
    [.logSave 7, .step 0, .step 0, .step 0, .step 0, .logFlush, .logFlush, .step 1, .step 2,
    .step 1,
      .step 2] s ∧ s.admitted = [7] ∧ s.printed = [some 7, some 7] ∧ ¬Kept s := by
  have hrun : ∃ s, Run (fun s a s' => step s a = some s') (init Nat)
      [.logSave 7, .step 0, .step 0, .step 0, .step 0, .logFlush, .logFlush, .step 1, .step 2,
      .step 1,
        .step 2] s ∧ s.admitted = [7] ∧ s.printed = [some 7, some 7] := by
    obtain ⟨idle, hinit⟩ := init_eq_cons (ρ := Nat)
    rw [hinit]
    exact ⟨_, .cons rfl (.cons rfl
      (.cons rfl (.cons rfl (.cons rfl (.cons rfl (.cons rfl (.cons rfl (.cons rfl
      (.cons rfl (.cons rfl (.nil _))))))))))), rfl, rfl⟩
  obtain ⟨s, hrun, hadmitted, hprinted⟩ := hrun
  refine ⟨s, hrun, hadmitted, hprinted, fun hkept => ?_⟩
  have hlength := hkept.order.length_le
  rw [hadmitted, hprinted] at hlength
  exact absurd hlength (by decide)

end Logger

end LibNax
