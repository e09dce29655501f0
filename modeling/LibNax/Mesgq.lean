import LibNax.Common
import Mathlib.Data.Int.ModEq

/-!
# Deadlines

The message queues wait up to a time, which is the time now and a number of milliseconds.  Both calls
add the milliseconds below a second to the nanoseconds, and carry nothing; the lock that waits does.

* `mesgqSendmsg`, `mesgqRecvmsg`, `lwpMutexTimedlock` — the functions, with the calls of the system
  as a parameter.
* `Deadline` — what a time has to be, for the time now and the milliseconds.
* `deadline_carried_iff` — the deadline of the lock.
* `deadlines_iff` — where all three deadlines are right.
-/

set_option autoImplicit false

namespace LibNax

namespace Mesgq

/-! ## The source -/

/-- `struct timespec`. -/
structure Timespec where
  tvSec : Int
  tvNsec : Int
  deriving DecidableEq

/-- The value of a `time_t` that a sum left in a register of 64 bits. -/
def int64 (x : Int) : Int := x.bmod (2 ^ 64)

/-- The calls of the system that are made with a deadline, or without one. -/
inductive Syscall where
  | timedsend (msg : List UInt8) (prio : Nat) (abstime : Timespec)
  | send (msg : List UInt8) (prio : Nat)
  | timedreceive (msgLen : Nat) (abstime : Timespec)
  | receive (msgLen : Nat)
  | timedlock (abstime : Timespec)

/-- The result of a call, and `errno`. -/
abbrev System : Type := Syscall → Int × Int

/-- `posix__makeerror`. -/
def makeerror (e : Int) : Int := if e ≤ 0 then e else -e

/-- `EAGAIN`. -/
def eAgain : Int := 11

/-- The deadline of `mesgq_sendmsg` and of `mesgq_recvmsg`. -/
def deadline (now : Timespec) (timeout : Int) : Timespec where
  tvSec := int64 (now.tvSec + timeout.tdiv 1000)
  tvNsec := now.tvNsec + timeout.tmod 1000 * 1000000

/-- `mesgq_sendmsg`: the call that is made, and what is returned. -/
def mesgqSendmsg (system : System) (now : Timespec) (msg : Option (List UInt8)) (prio : Nat)
    (timeout : Int) : Option Syscall × Int :=
  match msg with
  | none => (none, eInval)
  | some msg =>
    if msg.length = 0 then (none, eInval)
    else
      let call := if timeout > 0 then .timedsend msg prio (deadline now timeout) else .send msg prio
      let (status, errno) := system call
      if status < 0 then (some call, if errno = eAgain then eAgain else makeerror errno)
      else (some call, status)

/-- `mesgq_recvmsg` into a buffer of `msgLen` bytes: the call that is made, and what is returned. -/
def mesgqRecvmsg (system : System) (now : Timespec) (msg : Bool) (msgLen : Nat) (timeout : Int) :
    Option Syscall × Int :=
  if msg = false ∨ msgLen = 0 then (none, eInval)
  else
    let call := if timeout > 0 then .timedreceive msgLen (deadline now timeout) else .receive msgLen
    let (retb, errno) := system call
    if retb = -1 then (some call, if errno = eAgain then eAgain else makeerror errno)
    else (some call, retb)

/-- The deadline of `lwp_mutex_timedlock`. -/
def deadlineCarried (now : Timespec) (expires : Nat) : Timespec :=
  let nsec := (now.tvNsec + expires * 1000000) % 2 ^ 64
  ⟨int64 (now.tvSec + nsec / 1000000000), nsec % 1000000000⟩

/-- `lwp_mutex_timedlock`, where the clock can be read. -/
def lwpMutexTimedlock (system : System) (now : Timespec) (mutex : Bool) (expires : Nat) :
    Option Syscall × Int :=
  if mutex = false then (none, eInval)
  else
    let call := .timedlock (deadlineCarried now expires)
    (some call, makeerror (system call).1)

/-! ## What a deadline is -/

/-- A time that a clock can show. -/
structure Timespec.Valid (t : Timespec) : Prop where
  sec : -2 ^ 63 ≤ t.tvSec ∧ t.tvSec < 2 ^ 63
  nsec : 0 ≤ t.tvNsec ∧ t.tvNsec < 10 ^ 9

/-- The nanoseconds of a time. -/
def Timespec.nanoseconds (t : Timespec) : Int := t.tvSec * 10 ^ 9 + t.tvNsec

/-- A time is `timeout` milliseconds from now, and the system takes it. -/
structure Deadline (now : Timespec) (timeout : Int) (abstime : Timespec) : Prop where
  valid : 0 ≤ abstime.tvNsec ∧ abstime.tvNsec < 10 ^ 9
  exact : abstime.nanoseconds = now.nanoseconds + timeout * 10 ^ 6

theorem int64_of_lt {x : Int} (h : -2 ^ 63 ≤ x) (h' : x < 2 ^ 63) : int64 x = x := by
  rw [int64, Int.bmod_def]
  split
  · omega
  · omega

theorem int64_lt (x : Int) : int64 x < 2 ^ 63 := by
  rw [int64, Int.bmod_def]
  split
  · omega
  · omega

/-- The deadline without a carry: it is right where there is none, and the seconds fit. -/
theorem deadline_iff {now : Timespec} (hnow : now.Valid) {timeout : Int} (hpos : 0 < timeout) :
    Deadline now timeout (deadline now timeout) ↔
      now.tvNsec + timeout % 1000 * 10 ^ 6 < 10 ^ 9 ∧ now.tvSec + timeout / 1000 < 2 ^ 63 := by
  have hsec := hnow.sec
  have hnsec := hnow.nsec
  have hdiv : timeout.tdiv 1000 = timeout / 1000 := Int.tdiv_eq_ediv_of_nonneg (Int.le_of_lt hpos)
  have hmod : timeout.tmod 1000 = timeout % 1000 := Int.tmod_eq_emod_of_nonneg (Int.le_of_lt hpos)
  have hlt := int64_lt (now.tvSec + timeout / 1000)
  rw [deadline, hdiv, hmod]
  constructor
  · rintro ⟨hvalid, hexact⟩
    simp only [Timespec.nanoseconds] at hvalid hexact
    omega
  · rintro ⟨hcarry, hfits⟩
    have heq := int64_of_lt (x := now.tvSec + timeout / 1000) (by omega) hfits
    refine ⟨?_, ?_⟩
    · simp only
      omega
    · simp only [Timespec.nanoseconds, heq]
      omega

/-- **The deadline of the lock** is right, where the seconds fit. -/
theorem deadline_carried_iff {now : Timespec} (hnow : now.Valid) {expires : Nat}
    (hlt : expires < 2 ^ 32) : Deadline now expires (deadlineCarried now expires) ↔
      now.tvSec + (now.tvNsec + expires * 10 ^ 6) / 10 ^ 9 < 2 ^ 63 := by
  have hsec := hnow.sec
  have hnsec := hnow.nsec
  have hmod : (now.tvNsec + expires * 1000000) % 2 ^ 64 = now.tvNsec + expires * 1000000 :=
    Int.emod_eq_of_lt (by omega) (by omega)
  have hlt := int64_lt (now.tvSec + (now.tvNsec + expires * 1000000) / 1000000000)
  rw [deadlineCarried, hmod]
  constructor
  · rintro ⟨-, hexact⟩
    simp only [Timespec.nanoseconds] at hexact
    omega
  · intro hfits
    have heq := int64_of_lt
      (x := now.tvSec + (now.tvNsec + expires * 1000000) / 1000000000) (by omega) (by omega)
    refine ⟨?_, ?_⟩
    · simp only
      omega
    · simp only [Timespec.nanoseconds, heq]
      omega

/-! ## The three calls -/

/-- The deadlines that the two calls of the queue and the lock give to the system are right. -/
structure Deadlines (now : Timespec) (timeout : Nat) : Prop where
  send : ∀ (system : System) (msg : List UInt8) (prio : Nat), msg ≠ [] → ∃ abstime,
    (mesgqSendmsg system now (some msg) prio timeout).1 = some (.timedsend msg prio abstime) ∧
      Deadline now timeout abstime
  receive : ∀ (system : System) (msgLen : Nat), 0 < msgLen → ∃ abstime,
    (mesgqRecvmsg system now true msgLen timeout).1 = some (.timedreceive msgLen abstime) ∧
      Deadline now timeout abstime
  lock : ∀ system : System, ∃ abstime,
    (lwpMutexTimedlock system now true timeout).1 = some (.timedlock abstime) ∧
      Deadline now timeout abstime

theorem mesgqSendmsg_fst (system : System) (now : Timespec) {msg : List UInt8} (hne : msg ≠ [])
    (prio : Nat) {timeout : Int} (hpos : 0 < timeout) :
    (mesgqSendmsg system now (some msg) prio timeout).1 =
      some (.timedsend msg prio (deadline now timeout)) := by
  have hlen : ¬msg.length = 0 := List.length_eq_zero_iff.not.mpr hne
  simp only [mesgqSendmsg, if_neg hlen, gt_iff_lt, if_pos hpos]
  split
  · rfl
  · rfl

theorem mesgqRecvmsg_fst (system : System) (now : Timespec) {msgLen : Nat} (hlen : 0 < msgLen)
    {timeout : Int} (hpos : 0 < timeout) : (mesgqRecvmsg system now true msgLen timeout).1 =
      some (.timedreceive msgLen (deadline now timeout)) := by
  have hno : ¬(true = false ∨ msgLen = 0) := not_or.mpr ⟨Bool.noConfusion, Nat.ne_of_gt hlen⟩
  simp only [mesgqRecvmsg, if_neg hno, gt_iff_lt, if_pos hpos]
  split
  · rfl
  · rfl

/-- **The deadlines are right exactly where no second is to be carried**, and the seconds fit. -/
theorem deadlines_iff {now : Timespec} (hnow : now.Valid) {timeout : Nat} (hpos : 0 < timeout)
    (hlt : timeout < 2 ^ 31) : Deadlines now timeout ↔
      now.tvNsec + (timeout % 1000 : Nat) * 10 ^ 6 < 10 ^ 9 ∧
        now.tvSec + (timeout / 1000 : Nat) < 2 ^ 63 := by
  have hpos' : (0 : Int) < timeout := Int.natCast_pos.mpr hpos
  have hiff := deadline_iff hnow hpos'
  rw [Int.natCast_mod, Int.natCast_div]
  refine Iff.trans ?_ hiff
  constructor
  · intro h
    obtain ⟨abstime, hcall, hd⟩ := h.receive (fun _ => (0, 0)) 1 Nat.one_pos
    rw [mesgqRecvmsg_fst _ now Nat.one_pos hpos'] at hcall
    cases hcall
    exact hd
  · intro hd
    have hfits := hiff.mp hd
    have hnsec := hnow.nsec
    refine ⟨fun system msg prio hne => ⟨_, mesgqSendmsg_fst system now hne prio hpos', hd⟩,
      fun system msgLen hlen => ⟨_, mesgqRecvmsg_fst system now hlen hpos', hd⟩,
      fun system => ⟨_, rfl, (deadline_carried_iff hnow (by omega)).mpr ?_⟩⟩
    omega

/-- Half a second late in a second is not in the next one. -/
theorem deadlines_iff_half : ¬Deadlines ⟨7, 600000000⟩ 500 ∧ Deadlines ⟨7, 400000000⟩ 500 := by
  have hlate : Timespec.Valid ⟨7, 600000000⟩ := ⟨by decide, by decide⟩
  have hearly : Timespec.Valid ⟨7, 400000000⟩ := ⟨by decide, by decide⟩
  refine ⟨(deadlines_iff hlate (by decide) (by decide)).not.mpr (by decide),
    (deadlines_iff hearly (by decide) (by decide)).mpr (by decide)⟩

/-- Half a second from `7.6`, as it is given to the system: `1100000000` nanoseconds. -/
theorem deadlines_not :
    (mesgqSendmsg (fun _ => (0, 0)) ⟨7, 600000000⟩ (some [0x61]) 0 500).1 =
      some (.timedsend [0x61] 0 ⟨7, 1100000000⟩) ∧ ¬Deadlines ⟨7, 600000000⟩ 500 := by
  refine ⟨rfl, fun h => ?_⟩
  obtain ⟨abstime, hcall, hd⟩ := h.send (fun _ => (0, 0)) [0x61] 0 (List.cons_ne_nil _ _)
  cases hcall
  exact absurd hd.valid.2 (by decide)

end Mesgq

end LibNax
