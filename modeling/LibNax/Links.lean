import Mathlib.Data.List.Induction
import Mathlib.Data.List.Perm.Basic
import Mathlib.Logic.Function.Basic

/-!
# Links, and the events on them

Every link is in a list while it lives, and what happens to it is posted to a callback of the user.
The functions test what they are given with two macros that are written the wrong way round: they
return where the parameter is *not* illegal.

* `illegalParameter` — the macros.
* `ncbAllocator`, `ncbDeconstruct`, `ncbPost…`, `ncbRecvdata`, `ncbSenddata` — as in the source.
* `Registry` — what the callers are told: the links that live, the events, and the transfers.
* `Kept` — the functions do what the callers are told.
* `ncb_kept_iff` — they do as long as links are only made.
-/

set_option autoImplicit false

namespace LibNax

namespace Links

/-! ## The functions of the source -/

/-- `ILLEGAL_PARAMETER_CHECK` and `ILLEGAL_PARAMETER_STOP`: whether the function returns. -/
def illegalParameter (expr : Bool) : Bool := !expr

/-- What a callback is called with. -/
inductive Event where
  | preClose (context : Option Nat)
  | closed
  | receiveData (data : List UInt8)
  | pipeData (data : List UInt8)
  | tcpAccepted (link : Int)
  | tcpConnected
  deriving Repr, DecidableEq

/-- `struct _ncb`, as far as it is used here, with the pointers by whether they are there. -/
structure Ncb where
  /-- Whether the protocol is `IPPROTO_TCP`. -/
  tcp : Bool
  rxBuffer : Bool
  rxBufferSize : Nat
  rxParseBuffer : Bool
  lbdata : Bool
  lbsize : Int
  /-- The packets that wait to be sent. -/
  fifo : List (List UInt8)
  nisCallback : Bool
  context : Option Nat
  deriving Repr, DecidableEq

/-- The control block after `memset` and `fifo_init`. -/
def Ncb.zero : Ncb := ⟨false, false, 0, false, false, 0, [], false, none⟩

/-- What a transfer does: it returns `-EINVAL`, or it calls the socket with so many bytes. -/
inductive Transfer where
  | einval
  | socket (len : Nat)
  deriving Repr, DecidableEq

/-- The list of the links, the control blocks, the calls of callbacks and the transfers so far. -/
structure Net where
  nlHead : List Nat
  nlCount : Int
  ncbs : Nat → Ncb
  delivered : List (Nat × Event)
  transfers : List Transfer

def Net.setNcb (s : Net) (p : Nat) (ncb : Ncb) : Net :=
    { s with ncbs := Function.update s.ncbs p ncb }

/-- `ncb_allocator`. -/
def ncbAllocator (s : Net) (p : Nat) : Net :=
  { s.setNcb p .zero with nlHead := s.nlHead ++ [p], nlCount := s.nlCount + 1 }

/-- The call of a callback; a null pointer cannot be called. -/
def callback (s : Net) (p : Nat) (event : Event) : Option Net :=
  if (s.ncbs p).nisCallback then some { s with delivered := s.delivered ++ [(p, event)] } else none

/-- The functions that post an event. -/
def ncbPost (s : Net) (p : Nat) (event : Event) : Option Net :=
  if illegalParameter (!(s.ncbs p).nisCallback) then some s else callback s p event

/-- `_ncb_post_preclose`. -/
def ncbPostPreclose (s : Net) (p : Nat) : Option Net := ncbPost s p (.preClose (s.ncbs p).context)

/-- `_ncb_post_closed`. -/
def ncbPostClosed (s : Net) (p : Nat) : Option Net := ncbPost s p .closed

/-- `ncb_post_recvdata`. -/
def ncbPostRecvdata (s : Net) (p : Nat) (data : List UInt8) : Option Net :=
  ncbPost s p (.receiveData data)

/-- `ncb_post_pipedata`. -/
def ncbPostPipedata (s : Net) (p : Nat) (data : List UInt8) : Option Net :=
  ncbPost s p (.pipeData data)

/-- `ncb_post_accepted`. -/
def ncbPostAccepted (s : Net) (p : Nat) (link : Int) : Option Net := ncbPost s p (.tcpAccepted link)

/-- `ncb_post_connected`. -/
def ncbPostConnected (s : Net) (p : Nat) : Option Net := ncbPost s p .tcpConnected

/-- The buffers and the packets of a control block, freed. -/
def Ncb.release (ncb : Ncb) : Ncb :=
  let ncb := { ncb with rxBuffer := false }
  let ncb := if ncb.rxParseBuffer ∧ ncb.tcp then
      { ncb with rxParseBuffer := false, lbdata := false, lbsize := 0 }
    else ncb
  { ncb with fifo := [] }

/-- `ncb_deconstruct`, without what it does to the socket.  Nothing can be done with a null
pointer. -/
def ncbDeconstruct (s : Net) (p : Option Nat) : Option Net :=
  if illegalParameter p.isNone then some s
  else
    match p with
    | none => none
    | some p =>
      (ncbPostPreclose s p).bind fun s =>
        let s := s.setNcb p { s.ncbs p with context := none }
        let s := s.setNcb p (s.ncbs p).release
        let s := { s with nlHead := s.nlHead.erase p, nlCount := s.nlCount - 1 }
        (ncbPostClosed s p).map fun s => s.setNcb p { s.ncbs p with nisCallback := false }

/-- `ncb_recvdata`, for a pointer that is there or not. -/
def ncbRecvdata (ncb : Ncb) (data : Bool) (datalen : Nat) : Transfer :=
  let base := data || ncb.rxBuffer
  let len := if data && decide (datalen > 0) then datalen else ncb.rxBufferSize
  if illegalParameter (!base || decide (len ≤ 0)) then .einval else .socket len

/-- `ncb_senddata`. -/
def ncbSenddata (data : Bool) (datalen : Nat) : Transfer :=
  if illegalParameter (!data || decide (datalen ≤ 0)) then .einval else .socket datalen

/-! ## Calls -/

/-- A call; `assign` is what the function that makes a link writes to the control block. -/
inductive Call where
  | allocator (p : Nat)
  | assign (p : Nat) (ncb : Ncb)
  | postRecvdata (p : Nat) (data : List UInt8)
  | postPipedata (p : Nat) (data : List UInt8)
  | postAccepted (p : Nat) (link : Int)
  | postConnected (p : Nat)
  | deconstruct (p : Nat)
  | recvdata (p : Nat) (data : Bool) (datalen : Nat)
  | senddata (p : Nat) (data : Bool) (datalen : Nat)
  deriving Repr, DecidableEq

/-- A call of the code, unless it calls a null pointer. -/
def Net.call (s : Net) : Call → Option Net
  | .allocator p => some (ncbAllocator s p)
  | .assign p ncb => some (s.setNcb p ncb)
  | .postRecvdata p data => ncbPostRecvdata s p data
  | .postPipedata p data => ncbPostPipedata s p data
  | .postAccepted p link => ncbPostAccepted s p link
  | .postConnected p => ncbPostConnected s p
  | .deconstruct p => ncbDeconstruct s (some p)
  | .recvdata p data datalen =>
    some { s with transfers := s.transfers ++ [ncbRecvdata (s.ncbs p) data datalen] }
  | .senddata _ data datalen => some
      { s with transfers := s.transfers ++ [ncbSenddata data datalen] }

/-- Before the first call. -/
def Net.init : Net := ⟨[], 0, fun _ => .zero, [], []⟩

/-! ## What the callers are told -/

/-- The links that live and those that are gone, what was written to them, and what is to be
seen. -/
structure Registry where
  live : List Nat
  gone : List Nat
  ncbs : Nat → Ncb
  events : List (Nat × Event)
  transfers : List Transfer

/-- An event is for the callback, if there is one. -/
def Registry.post (r : Registry) (p : Nat) (events : List Event) : Registry :=
  if (r.ncbs p).nisCallback then { r with events := r.events ++ events.map (p, ·) } else r

/-- A transfer of a buffer. -/
def transfer (base : Bool) (len : Nat) : Transfer := if base ∧ 0 < len then .socket len else .einval

/-- What a call is to do; it is for a link that lives. -/
def Registry.call (r : Registry) : Call → Option Registry
  | .allocator p =>
    if p ∈ r.live ∨ p ∈ r.gone then none
    else some { r with live := r.live ++ [p], ncbs := Function.update r.ncbs p .zero }
  | .assign p ncb => if p ∈ r.live then some
      { r with ncbs := Function.update r.ncbs p ncb } else none
  | .postRecvdata p data => if p ∈ r.live then some (r.post p [.receiveData data]) else none
  | .postPipedata p data => if p ∈ r.live then some (r.post p [.pipeData data]) else none
  | .postAccepted p link => if p ∈ r.live then some (r.post p [.tcpAccepted link]) else none
  | .postConnected p => if p ∈ r.live then some (r.post p [.tcpConnected]) else none
  | .deconstruct p =>
    if p ∈ r.live then
      let r := r.post p [.preClose (r.ncbs p).context, .closed]
      some { r with live := r.live.erase p, gone := r.gone ++ [p] }
    else none
  | .recvdata p data datalen =>
    if p ∈ r.live then
      let base := data || (r.ncbs p).rxBuffer
      let len := if data && decide (datalen > 0) then datalen else (r.ncbs p).rxBufferSize
      some { r with transfers := r.transfers ++ [transfer base len] }
    else none
  | .senddata p data datalen =>
    if p ∈ r.live then some { r with transfers := r.transfers ++ [transfer data datalen] } else none

/-- Before the first call. -/
def Registry.init : Registry := ⟨[], [], fun _ => .zero, [], []⟩

/-- The events of a link. -/
def eventsOf (p : Nat) (events : List (Nat × Event)) : List Event :=
  (events.filter (·.1 = p)).map Prod.snd

/-- The state is as the callers are told. -/
structure Meets (r : Registry) (s : Net) : Prop where
  count : s.nlCount = r.live.length
  head : s.nlHead.Perm r.live
  events : ∀ p, eventsOf p s.delivered = eventsOf p r.events
  transfers : s.transfers = r.transfers
  released : ∀ p ∈ r.gone, (s.ncbs p).fifo = [] ∧ (s.ncbs p).rxBuffer = false ∧
    ((s.ncbs p).tcp → (s.ncbs p).rxParseBuffer = false)

/-- After every one of the calls the state is as the callers are told, and no null pointer was
called. -/
def Kept (calls : List Call) : Prop :=
  ∀ before, before <+: calls → ∃ r s, before.foldlM Registry.call .init = some r ∧
    before.foldlM Net.call .init = some s ∧ Meets r s

/-- The call makes a link. -/
def Call.Makes : Call → Prop
  | .allocator _ => True
  | .assign _ _ => True
  | _ => False

/-! ## One call -/

/-- As long as links are only made. -/
structure Sync (r : Registry) (s : Net) : Prop where
  count : s.nlCount = r.live.length
  head : s.nlHead = r.live
  ncbs : s.ncbs = r.ncbs
  gone : r.gone = []
  delivered : s.delivered = []
  events : r.events = []
  transfers : s.transfers = []
  transfers' : r.transfers = []

variable {r r' : Registry} {s s' : Net} {c : Call} {p : Nat}

theorem Sync.meets (h : Sync r s) : Meets r s where
  count := h.count
  head := by rw [h.head]
  events := fun p => by rw [h.delivered, h.events]
  transfers := h.transfers.trans h.transfers'.symm
  released := fun p hp => by
    rw [h.gone] at hp
    cases hp

theorem sync_init : Sync .init .init := ⟨rfl, rfl, rfl, rfl, rfl, rfl, rfl, rfl⟩

/-- Making a link. -/
theorem Sync.call (h : Sync r s) (hc : c.Makes) (hr : r.call c = some r') :
    ∃ s', s.call c = some s' ∧ Sync r' s' := by
  cases c with
  | allocator p =>
    rw [Registry.call] at hr
    split at hr
    · cases hr
    · cases hr
      refine ⟨ncbAllocator s p, rfl, ⟨?_, ?_, ?_, h.gone, h.delivered, h.events, h.transfers,
        h.transfers'⟩⟩
      · show s.nlCount + 1 = _
        rw [h.count, List.length_append]
        rfl
      · show s.nlHead ++ [p] = _
        rw [h.head]
      · show Function.update s.ncbs p _ = _
        rw [h.ncbs]
  | assign p ncb =>
    rw [Registry.call] at hr
    split at hr
    · cases hr
      refine ⟨s.setNcb p ncb, rfl, ⟨h.count, h.head, ?_, h.gone, h.delivered, h.events, h.transfers,
        h.transfers'⟩⟩
      show Function.update s.ncbs p _ = _
      rw [h.ncbs]
    · cases hr
  | _ => exact absurd hc id

/-- A posted event: it is dropped, or a null pointer is called. -/
theorem ncbPost_eq (s : Net) (p : Nat) (event : Event) :
    ncbPost s p event = if (s.ncbs p).nisCallback then some s else none := by
  rw [ncbPost, illegalParameter, callback]
  cases (s.ncbs p).nisCallback with
  | true => rfl
  | false => rfl

/-- An event that is not delivered. -/
theorem Sync.post_broken (h : Sync r s) {event : Event} (hs : ncbPost s p event = some s')
    (hm : Meets (r.post p [event]) s') : False := by
  rw [ncbPost_eq] at hs
  split at hs
  · rename_i hcallback
    cases hs
    rw [h.ncbs] at hcallback
    have hevents := hm.events p
    rw [Registry.post, if_pos hcallback, h.delivered, h.events] at hevents
    simp [eventsOf] at hevents
  · cases hs

/-- A transfer goes the other way. -/
theorem transfer_ne (base : Bool) (len : Nat) :
    (if illegalParameter (!base || decide (len ≤ 0)) then Transfer.einval else .socket len) ≠
      transfer base len := by
  rw [illegalParameter, transfer]
  cases base with
  | false => simp
  | true => cases len with
    | zero => simp
    | succ len => simp

theorem Sync.transfer_broken (h : Sync r s) {a b : Transfer} (hne : a ≠ b)
    (htransfers : s.transfers ++ [a] = r.transfers ++ [b]) : False := by
  simp only [h.transfers, h.transfers', List.nil_append, List.cons.injEq, and_true] at htransfers
  exact hne htransfers

/-- **Every other call** goes wrong. -/
theorem Sync.broken (h : Sync r s) (hc : ¬c.Makes) (hr : r.call c = some r')
    (hs : s.call c = some s') :
    ¬Meets r' s' := by
  intro hm
  cases c with
  | allocator p => exact hc trivial
  | assign p ncb => exact hc trivial
  | postRecvdata p data =>
    rw [Registry.call] at hr
    split at hr
    · cases hr
      exact h.post_broken hs hm
    · cases hr
  | postPipedata p data =>
    rw [Registry.call] at hr
    split at hr
    · cases hr
      exact h.post_broken hs hm
    · cases hr
  | postAccepted p link =>
    rw [Registry.call] at hr
    split at hr
    · cases hr
      exact h.post_broken hs hm
    · cases hr
  | postConnected p =>
    rw [Registry.call] at hr
    split at hr
    · cases hr
      exact h.post_broken hs hm
    · cases hr
  | deconstruct p =>
    rw [Registry.call] at hr
    split at hr
    · rename_i hlive
      cases hr
      cases hs
      have hcount := hm.count
      have hpost : (r.post p [.preClose (r.ncbs p).context, .closed]).live = r.live := by
        rw [Registry.post]
        split
        · rfl
        · rfl
      simp only [hpost, h.count, List.length_erase_of_mem hlive] at hcount
      have := List.length_pos_of_mem hlive
      omega
    · cases hr
  | recvdata p data datalen =>
    rw [Registry.call] at hr
    split at hr
    · cases hr
      cases hs
      have htransfers := hm.transfers
      rw [h.ncbs] at htransfers
      exact h.transfer_broken (transfer_ne _ _) htransfers
    · cases hr
  | senddata p data datalen =>
    rw [Registry.call] at hr
    split at hr
    · cases hr
      cases hs
      exact h.transfer_broken (transfer_ne _ _) hm.transfers
    · cases hr

/-! ## Whole runs -/

/-- Making links, call after call. -/
theorem sync_foldlM {calls : List Call} (hc : ∀ c ∈ calls, c.Makes) (h : Sync r s)
    (hr : calls.foldlM Registry.call r = some r') :
    ∃ s', calls.foldlM Net.call s = some s' ∧ Sync r' s' := by
  induction calls generalizing r s with
  | nil =>
    cases hr
    exact ⟨s, rfl, h⟩
  | cons c calls ih =>
    rw [List.foldlM_cons] at hr
    obtain ⟨r₁, hr₁, hr⟩ := Option.bind_eq_some_iff.mp hr
    obtain ⟨s₁, hs₁, h₁⟩ := h.call (hc c List.mem_cons_self) hr₁
    obtain ⟨s', hs', h'⟩ := ih (fun c hc' => hc c (List.mem_cons_of_mem _ hc')) h₁ hr
    refine ⟨s', ?_, h'⟩
    rw [List.foldlM_cons, hs₁]
    exact hs'

/-- What some calls are to do, the first of them are to do. -/
theorem foldlM_initial {before calls : List Call} (h : before <+: calls)
    (hr : calls.foldlM Registry.call r = some r') :
    ∃ r₁, before.foldlM Registry.call r = some r₁ := by
  obtain ⟨after, rfl⟩ := h
  rw [List.foldlM_append] at hr
  obtain ⟨r₁, hr₁, -⟩ := Option.bind_eq_some_iff.mp hr
  exact ⟨r₁, hr₁⟩

/-- **The callers are told the truth** exactly as long as links are only made: every event, every
deconstruction and every transfer goes wrong. -/
theorem ncb_kept_iff {calls : List Call} (hlegal : ∃ r, calls.foldlM Registry.call .init = some r) :
    Kept calls ↔ ∀ c ∈ calls, c.Makes := by
  constructor
  · intro hkept
    induction calls using List.reverseRecOn with
    | nil => exact fun c hc => by cases hc
    | append_singleton calls c ih =>
      have hprefix : calls <+: calls ++ [c] := List.prefix_append calls [c]
      obtain ⟨r', hr'⟩ := hlegal
      have hmakes := ih (foldlM_initial hprefix hr') fun before hb =>
          hkept before (hb.trans hprefix)
      rw [List.foldlM_append] at hr'
      obtain ⟨r, hr, hlast⟩ := Option.bind_eq_some_iff.mp hr'
      obtain ⟨s, hs, hsync⟩ := sync_foldlM hmakes sync_init hr
      obtain ⟨r₁, s₁, hr₁, hs₁, hmeets⟩ := hkept _ List.prefix_rfl
      rw [List.foldlM_append, hr] at hr₁
      rw [List.foldlM_append, hs] at hs₁
      have hr₂ : r.call c = some r₁ := by simpa using hr₁
      have hs₂ : s.call c = some s₁ := by simpa using hs₁
      have hc : c.Makes := by
        by_contra hno
        exact hsync.broken hno hr₂ hs₂ hmeets
      intro c' hc'
      rcases List.mem_append.mp hc' with hc' | hc'
      · exact hmakes c' hc'
      · rw [List.mem_singleton.mp hc']
        exact hc
  · intro hmakes before hb
    obtain ⟨r', hr'⟩ := hlegal
    obtain ⟨r, hr⟩ := foldlM_initial hb hr'
    obtain ⟨s, hs, hsync⟩ := sync_foldlM (fun c hc => hmakes c (hb.subset hc)) sync_init hr
    exact ⟨r, s, hr, hs, hsync.meets⟩

/-- Two links are made. -/
theorem ncb_kept_two : Kept [.allocator 1, .assign 1 { Ncb.zero with nisCallback := true },
    .allocator 2] :=
  (ncb_kept_iff ⟨_, rfl⟩).mpr fun c hc => by
    simp only [List.mem_cons, List.not_mem_nil, or_false] at hc
    rcases hc with rfl | rfl | rfl
    · trivial
    · trivial
    · trivial

/-- A link with a callback is made and deconstructed: it is still in the list. -/
theorem ncb_not_kept : ¬Kept [.allocator 1, .assign 1 { Ncb.zero with nisCallback := true },
    .deconstruct 1] := by
  intro h
  obtain ⟨r, s, hr, hs, hmeets⟩ := h _ List.prefix_rfl
  cases hr
  cases hs
  exact absurd hmeets.count (by decide)

end Links

end LibNax
