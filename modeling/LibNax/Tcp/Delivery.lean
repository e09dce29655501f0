import LibNax.Tcp.Framing
import LibNax.Tcp.Order

/-!
# From the writers to the receiver

The two halves of a link together: any number of threads call `tcp_write` on one end, the worker
drains the queue, the kernel carries the bytes, and `_tcp_rx` takes them apart at the other end as
they come, in chunks of any size.  Each half was looked at on its own; what the user of the library
counts on is that the messages come out at the other end as they went in.

* `Connection` and `connectionStep` — both ends, and one step of either.
* `frameOf` and `Legible` — the packet of a call as a frame, and a template whose parser reads what
  its builder wrote.
* `Sending` — the calls whose packets are on the wire or on their way to it, and `sending_step` that
  a step only appends to them.
* `Received` — what the receiver has made of the bytes so far.
* `delivery` — whole messages, in order, once, and none that nobody wrote.

The conditions are those under which each half keeps its promise: `Disciplined` for the writers,
and for the receiver that no chunk ends inside the header of a packet that needs a large block.
-/

set_option autoImplicit false

namespace LibNax

namespace Tcp

variable {Tid : Type}

/-! ## Both ends -/

/-- A link from its sending to its receiving end. -/
structure Connection (Tid : Type) where
  /-- The sending end. -/
  tx : State Tid
  /-- The bytes that the receiver has read from its socket. -/
  arrived : List UInt8
  /-- The receiving end. -/
  rx : Rx
  /-- Whether the receiver has closed the link. -/
  closed : Bool

/-- One step of either end. -/
inductive Event (Tid : Type) where
  /-- A writer or the worker. -/
  | send (act : Act Tid)
  /-- The receiver reads so many bytes from its socket and takes them apart. -/
  | receive (chunk : List UInt8)

section Template

variable (cb : Nat) (parser : List UInt8 → Int × Int)
  (builder : Nat → Except Int (List.Vector UInt8 cb)) (fully nonblock : Bool)

/-- The sending end of a link with this template. -/
def senderOf : TxLink := ⟨⟨cb, some parser⟩, some builder, false, nonblock⟩

/-- The kernel hands over the bytes that were sent, from where it stopped, and `_tcp_rx` asks for no
more than its buffer holds. -/
def Arrives (s : Connection Tid) (chunk : List UInt8) : Prop :=
  chunk ≠ [] ∧ chunk.length ≤ tcpBufferSize ∧ s.arrived ++ chunk <+: s.tx.sent

instance (s : Connection Tid) (chunk : List UInt8) : Decidable (Arrives s chunk) :=
  inferInstanceAs (Decidable (_ ∧ _ ∧ _))

variable [DecidableEq Tid]

/-- One step of the link, if it can be taken. -/
def connectionStep (s : Connection Tid) : Event Tid → Option (Connection Tid)
  | .send act => (step (senderOf cb parser builder nonblock) s.tx act).map fun tx => { s with tx }
  | .receive chunk =>
    if !s.closed ∧ Arrives s chunk then
      (tcpRx (linkOf cb parser fully) s.rx (.data chunk)).map fun r =>
        { s with arrived := s.arrived ++ chunk, rx := r.1, closed := decide (r.2 < (0 : Int)) }
    else none

end Template

/-- A link on which nothing has been written. -/
def connection (buffer : List UInt8) : Connection Tid := ⟨initial, [], Rx.init buffer, false⟩

/-! ## Calls and frames -/

/-- The packet of a call as a frame. -/
def frameOf (cb : Nat) (packet : List UInt8) : Frame := ⟨packet.take cb, packet.drop cb⟩

theorem frameOf_bytes (cb : Nat) (packet : List UInt8) : (frameOf cb packet).bytes = packet :=
  List.take_append_drop cb packet

/-- The frames of the calls. -/
def frames (cb : Nat) (calls : List Call) : List Frame := calls.map fun c => frameOf cb c.packet

theorem stream_frames (cb : Nat) (calls : List Call) :
    stream (frames cb calls) = packets calls := by
  induction calls with
  | nil => rfl
  | cons c calls ih =>
    rw [frames, List.map_cons, stream_cons, frameOf_bytes, ← frames, ih]
    rfl

/-- The parser reads off a header what the builder was told. -/
def Legible (cb : Nat) (parser : List UInt8 → Int × Int)
    (builder : Nat → Except Int (List.Vector UInt8 cb)) : Prop :=
  ∀ n header, builder n = .ok header → 0 ≤ (parser header.toList).1 ∧
    (parser header.toList).2 = n

/-- A packet that stands for a message: it is a legal frame, and its data are what one of these
calls serialized. -/
structure Message (cb : Nat) (parser : List UInt8 → Int × Int) (wrote : TcpWrite → Prop)
    (packet : List UInt8) : Prop where
  legal : (frameOf cb packet).Legal cb parser
  wrote : ∃ w, wrote w ∧ w.serialize = .ok (frameOf cb packet).payload

section Template

variable {cb : Nat} {parser : List UInt8 → Int × Int}
  {builder : Nat → Except Int (List.Vector UInt8 cb)} {fully nonblock : Bool}
  {wrote : TcpWrite → Prop}

theorem tcpWriteNode_message (hlegible : Legible cb parser builder) {w : TcpWrite}
    (hw : wrote w) {call : Nat} {n : TxNode}
    (h : tcpWriteNode (senderOf cb parser builder nonblock) w call = .ok n) :
    Message cb parser wrote n.data := by
  rw [tcpWriteNode] at h
  split at h
  · cases h
  rename_i hsize
  split at h
  · cases h
  simp only [senderOf, Bool.false_eq_true, if_false] at h
  cases hb : builder w.origin.length with
  | error status =>
    rw [hb] at h
    cases h
  | ok header =>
    cases hs : w.serialize with
    | error status =>
      rw [hb, hs] at h
      cases h
    | ok body =>
      rw [hb, hs] at h
      simp only [Except.bind, bind, pure, Except.pure] at h
      split at h
      · cases h
        have hlen : header.toList.length = cb := header.toList_length
        have htake : (header.toList ++ body).take cb = header.toList := List.take_left' hlen
        have hdrop : (header.toList ++ body).drop cb = body := List.drop_left' hlen
        have hbody := serialize_length hs
        obtain ⟨hstatus, hread⟩ := hlegible _ _ hb
        refine ⟨⟨?_, ?_, ?_, ?_, ?_⟩, w, hw, ?_⟩
        all_goals simp only [frameOf, htake, hdrop]
        · exact hlen
        · exact hstatus
        · rw [hread, hbody]
        · omega
        · omega
        · exact hs
      · cases h

end Template

/-! ## The calls on the way -/

/-- The calls whose packets are on the wire or on their way to it: the accepted ones, and the one
whose packet is cut. -/
inductive Sending (s : State Tid) : List Call → Prop where
  | quiet : (∀ t, (s.writer t).cut = none) → Sending s s.accepted
  | cut {t : Tid} {n : TxNode} : (s.writer t).cut = some n → Sending s (s.accepted ++ [n.toCall])

theorem Inv.sending {s : State Tid} (h : Inv s) : ∃ calls, Sending s calls := by
  rcases h.stream with hq | ⟨t, n, hc⟩
  · exact ⟨_, .quiet hq.cut⟩
  · exact ⟨_, .cut hc.cut⟩

/-- What the invariant says about the calls on the way. -/
theorem Inv.sending_cases {s : State Tid} (h : Inv s) {calls : List Call} (hs : Sending s calls) :
    (Quiet s ∧ calls = s.accepted) ∨ ∃ t n, Cut s t n ∧ calls = s.accepted ++ [n.toCall] := by
  rcases h.stream with hq | ⟨t, n, hc⟩
  · cases hs with
    | quiet _ => exact .inl ⟨hq, rfl⟩
    | cut hcut => rw [hq.cut] at hcut; cases hcut
  · cases hs with
    | quiet hcut =>
      have := hcut t
      rw [hc.cut] at this
      cases this
    | @cut t' n' hcut =>
      have ht : t' = t := by
        by_contra hne
        rw [hc.alone t' hne] at hcut
        cases hcut
      subst ht
      rw [hc.cut, Option.some.injEq] at hcut
      exact .inr ⟨t', n, hc, by rw [hcut]⟩

theorem Inv.sent_prefix {s : State Tid} (h : Inv s) {calls : List Call} (hs : Sending s calls) :
    s.sent <+: packets calls := by
  rcases h.sending_cases hs with ⟨hq, rfl⟩ | ⟨t, n, hc, rfl⟩
  · exact hq.sent ▸ List.prefix_append _ _
  · rw [packets_append, hc.sent, List.prefix_append_right_inj]
    exact List.take_prefix _ _

theorem Inv.sending_nodup [DecidableEq Tid] {s : State Tid} (h : Inv s)
    (hn : s.Numbered (· ≠ ·)) {calls : List Call} (hs : Sending s calls) :
    (calls.map Call.id).Nodup := by
  rcases h.sending_cases hs with ⟨-, rfl⟩ | ⟨t, n, hc, rfl⟩
  · exact hn.pairwise
  · have hopen : s.opened t = some n.call := by
      rw [State.opened, Writer.call, (Writer.cut_eq_some.mp hc.cut).1, Option.map_some]
    rw [List.map_append]
    exact (hn.accept hopen).pairwise

theorem Sending.congr {s s' : State Tid} {calls : List Call} (hs : Sending s calls)
    (hcut : ∀ t, (s'.writer t).cut = (s.writer t).cut) (hacc : s'.accepted = s.accepted) :
    Sending s' calls := by
  cases hs with
  | quiet h => exact hacc ▸ .quiet fun t => (hcut t).trans (h t)
  | cut h => exact hacc ▸ .cut ((hcut _).trans h)

theorem workerStep_frame {s s' : State Tid} {act : WorkerAct} (hs : workerStep s act = some s') :
    s'.writer = s.writer ∧ s'.accepted = s.accepted := by
  cases workerStep_inv hs with
  | @pop r hw hr =>
    rw [afterPop]
    split
    · exact ⟨rfl, rfl⟩
    · exact ⟨rfl, rfl⟩
  | _ => exact ⟨rfl, rfl⟩

section Sending

variable [DecidableEq Tid]

theorem cut_setWriter_of_eq {s : State Tid} {t : Tid} {w : Writer}
    (hw : w.cut = (s.writer t).cut) (t' : Tid) :
    ((s.setWriter t w).writer t').cut = (s.writer t').cut := by
  by_cases h : t' = t
  · rw [h, setWriter_writer_self, hw]
  · rw [setWriter_writer_ne s h]

/-- A packet that nobody disturbs is the last of the calls on the way, or is still to come. -/
theorem Inv.calls_prefix {s : State Tid} (h : Inv s) {t : Tid} {n : TxNode} (ha : Alone s t)
    (hn : (s.writer t).node = some n) {calls : List Call} (hs : Sending s calls) :
    calls <+: s.accepted ++ [n.toCall] := by
  rcases h.node_cases ha hn with hc | ⟨-, hq⟩
  · rcases h.sending_cases hs with ⟨hq, -⟩ | ⟨t', n', hc', rfl⟩
    · have := hq.cut t
      rw [hc.cut] at this
      cases this
    · have ht : t' = t := by
        by_contra hne
        have := hc.alone t' hne
        rw [hc'.cut] at this
        cases this
      subst ht
      have := hc.cut
      rw [hc'.cut, Option.some.injEq] at this
      rw [this]
  · rcases h.sending_cases hs with ⟨-, rfl⟩ | ⟨t', n', hc', -⟩
    · exact List.prefix_append _ _
    · have := hq.cut t'
      rw [hc'.cut] at this
      cases this

/-- **One step only appends to the calls on the way.** -/
theorem sending_step {l : TxLink} {s s' : State Tid} {a : Act Tid} (h : Inv s)
    (hd : Disciplined s a) (hstep : step l s a = some s') {calls : List Call}
    (hs : Sending s calls) : ∃ calls', Sending s' calls' ∧ calls <+: calls' := by
  have hsame : ∀ s' : State Tid, (∀ t, (s'.writer t).cut = (s.writer t).cut) →
      s'.accepted = s.accepted → ∃ calls', Sending s' calls' ∧ calls <+: calls' :=
    fun s' hcut hacc => ⟨calls, hs.congr hcut hacc, List.prefix_refl _⟩
  cases a with
  | worker act =>
    obtain ⟨hw, hacc⟩ := workerStep_frame hstep
    exact hsame s' (fun t => by rw [hw]) hacc
  | writer t act =>
    cases writerStep_inv hstep with
    | refuse w => exact hsame s (fun _ => rfl) rfl
    | @build w n hidle _ hoff _ =>
      refine hsame _ (fun t' => cut_setWriter_of_eq (s := s.newCall) ?_ t') rfl
      rw [show s.newCall.writer t = .idle from hidle]
      exact (Writer.cut_eq_none rfl).mpr hoff
    | overflow hn _ =>
      refine hsame _ (cut_setWriter_of_eq ?_) rfl
      rw [hn]
      rfl
    | direct hn _ =>
      rw [txnLoop, if_pos (h.test_lt hn)]
      refine hsame _ (cut_setWriter_of_eq ?_) rfl
      rw [hn]
      rfl
    | eagain hn =>
      refine hsame _ (cut_setWriter_of_eq ?_) rfl
      rw [hn]
      rfl
    | @send n wcb hn hsend =>
      obtain ⟨-, ha⟩ := hd
      refine ⟨s.accepted ++ [n.toCall], ?_, h.calls_prefix ha (by rw [hn]; rfl) hs⟩
      rw [txnLoop]
      split
      · refine Sending.cut (s := (s.transmit _).setWriter t _) (t := t) (n := n.advance wcb) ?_
        rw [setWriter_writer_self]
        exact Writer.cut_eq_some.mpr ⟨rfl, Nat.add_pos_right _ hsend.1⟩
      · exact Sending.quiet (s := ((s.transmit _).accept (n.advance wcb)).setWriter t .idle)
          (cut_setWriter rfl ha)
    | @reject n ioModify hn hwhy =>
      obtain ⟨ha, hio⟩ := hd
      refine hsame _ (cut_setWriter_of_eq ?_) rfl
      rcases h.node_cases ha (by rw [hn]; rfl) with hc | ⟨-, hq⟩
      · -- a cut packet finds the queue empty, and `io_modify` takes it
        exfalso
        have hsize : s.fifo.size = 0 := by rw [h.fifo.size, hc.head]; rfl
        have hnonneg := hio (by rw [hc.cut]; exact Option.some_ne_none n)
        rw [hsize, maximumFifoSize] at hwhy
        omega
      · exact (hq.cut t).symm
    | @queue n ioModify hn _ _ =>
      obtain ⟨ha, -⟩ := hd
      exact ⟨s.accepted ++ [n.toCall], .quiet (s := (((s.setFifo _).setEpollout _).accept
        n).setWriter t .idle) (cut_setWriter rfl ha), h.calls_prefix ha (by rw [hn]; rfl) hs⟩

end Sending

/-! ## The packets are messages -/

/-- Every packet on its way is a message. -/
structure Messages (cb : Nat) (parser : List UInt8 → Int × Int) (wrote : TcpWrite → Prop)
    (s : State Tid) : Prop where
  writer : ∀ t n, (s.writer t).node = some n → Message cb parser wrote n.data
  accepted : ∀ c ∈ s.accepted, Message cb parser wrote c.packet

section Messages

variable [DecidableEq Tid] {cb : Nat} {parser : List UInt8 → Int × Int}
  {builder : Nat → Except Int (List.Vector UInt8 cb)} {fully nonblock : Bool}
  {wrote : TcpWrite → Prop}

theorem Messages.setWriter {s : State Tid} (h : Messages cb parser wrote s) (t : Tid) {w : Writer}
    (hw : ∀ n, w.node = some n → Message cb parser wrote n.data) :
    Messages cb parser wrote (s.setWriter t w) := by
  refine ⟨fun t' n hn => ?_, h.accepted⟩
  by_cases ht : t' = t
  · rw [ht, setWriter_writer_self] at hn
    exact hw n hn
  · rw [setWriter_writer_ne s ht] at hn
    exact h.writer t' n hn

omit [DecidableEq Tid] in
theorem Messages.accept {s : State Tid} (h : Messages cb parser wrote s) {n : TxNode}
    (hn : Message cb parser wrote n.data) : Messages cb parser wrote (s.accept n) := by
  refine ⟨h.writer, fun c hc => ?_⟩
  rcases List.mem_append.mp hc with hc | hc
  · exact h.accepted c hc
  · exact List.mem_singleton.mp hc ▸ hn

theorem messages_step (hlegible : Legible cb parser builder) {s s' : State Tid} {a : Act Tid}
    (h : Messages cb parser wrote s) (hwrote : ∀ t w, a = .writer t (.write w) → wrote w)
    (hstep : step (senderOf cb parser builder nonblock) s a = some s') :
    Messages cb parser wrote s' := by
  have hidle : ∀ n : TxNode, Writer.idle.node = some n → Message cb parser wrote n.data :=
    fun n hn => nomatch hn
  cases a with
  | worker act =>
    obtain ⟨hw, hacc⟩ := workerStep_frame hstep
    exact ⟨hw ▸ h.writer, hacc ▸ h.accepted⟩
  | writer t act =>
    have hstep : writerStep (senderOf cb parser builder nonblock) s t act = some s' := hstep
    cases act with
    | write w =>
      rw [writerStep] at hstep
      split at hstep
      · split at hstep
        · cases hstep
          exact h
        · rename_i n hn
          cases hstep
          refine Messages.setWriter (s := s.newCall) ⟨h.writer, h.accepted⟩ t fun m hm => ?_
          obtain rfl := Option.some.inj hm
          exact tcpWriteNode_message hlegible (hwrote t w rfl) hn
      · cases hstep
    | test =>
      cases writerStep_inv hstep with
      | @overflow n hn _ =>
        exact h.setWriter t fun m hm => h.writer t m (by rw [hn]; exact hm)
      | @direct n hn _ =>
        have hm := h.writer t n (by rw [hn]; rfl)
        rw [txnLoop]
        split
        · exact h.setWriter t fun m hm => h.writer t m (by rw [hn]; exact hm)
        · exact (h.accept hm).setWriter t hidle
    | send wcb =>
      cases writerStep_inv hstep with
      | @send n _ hn _ =>
        have hm := h.writer t n (by rw [hn]; rfl)
        have ht : Messages cb parser wrote (s.transmit (n.rest.take wcb)) := ⟨h.writer, h.accepted⟩
        rw [txnLoop]
        split
        · exact ht.setWriter t fun m he => Option.some.inj he ▸ hm
        · exact (Messages.accept (n := n.advance wcb) ht hm).setWriter t hidle
    | eagain =>
      cases writerStep_inv hstep with
      | eagain hn => exact h.setWriter t fun m hm => h.writer t m (by rw [hn]; exact hm)
    | queue ioModify =>
      cases writerStep_inv hstep with
      | reject hn _ => exact h.setWriter t hidle
      | @queue n _ hn _ _ =>
        have hm := h.writer t n (by rw [hn]; rfl)
        refine Messages.setWriter (Messages.accept ?_ hm) t hidle
        exact ⟨h.writer, h.accepted⟩

omit [DecidableEq Tid] in
theorem Messages.of_sending {s : State Tid} (h : Messages cb parser wrote s) {calls : List Call}
    (hs : Sending s calls) : ∀ c ∈ calls, Message cb parser wrote c.packet := by
  cases hs with
  | quiet _ => exact h.accepted
  | @cut t n hcut =>
    exact (h.accept (h.writer t n (Writer.cut_eq_some.mp hcut).1)).accepted

end Messages

/-! ## The receiver -/

section Receiver

variable {cb : Nat} {parser : List UInt8 → Int × Int} {fully : Bool}

/-- What the receiver has made of the bytes so far: it has posted the first packets, and holds the
beginning of the next. -/
structure Received (cb : Nat) (parser : List UInt8 → Int × Int) (fully : Bool)
    (done rest : List Frame) (q : List UInt8) (pend : Pending) (s : Connection Tid) : Prop where
  next : At cb rest q pend
  arrived : s.arrived = stream done ++ q
  rep : Rep s.rx pend
  wf : pend.Wf cb parser
  posts : s.rx.posts = done.map fun f => deliver cb fully f.bytes

/-- More packets to come do not matter to what is pending. -/
theorem At.append (hcb : 0 < cb) {rest more : List Frame} {q : List UInt8} {pend : Pending}
    (h : At cb rest q pend) (hmore : ∀ f ∈ more, f.Legal cb parser) :
    At cb (rest ++ more) q pend := by
  cases rest with
  | nil =>
    obtain ⟨rfl, rfl⟩ := h
    exact at_nil hcb hmore
  | cons f rest => exact h

/-- **One chunk**: the receiver takes it apart without a fault and without closing the link. -/
theorem received_receive (hcb : 0 < cb) (hcb' : cb ≤ tcpBufferSize)
    (hparser : ∀ buffer, cb ≤ buffer.length → parser buffer = parser (buffer.take cb))
    {s : Connection Tid} {done rest : List Frame} {q : List UInt8} {pend : Pending}
    (h : Received cb parser fully done rest q pend s)
    (hlegal : ∀ f ∈ done ++ rest, f.Legal cb parser) {chunk : List UInt8} (hne : chunk ≠ [])
    (hlen : chunk.length ≤ tcpBufferSize) (hpre : s.arrived ++ chunk <+: stream (done ++ rest))
    (hclean : ¬CutsLargeHeader cb (done ++ rest) s.arrived.length) :
    ∃ rx done' rest' q' pend', tcpRx (linkOf cb parser fully) s.rx (.data chunk) = some (rx, 0) ∧
      done ++ rest = done' ++ rest' ∧ Received cb parser fully done' rest' q' pend'
        { s with arrived := s.arrived ++ chunk, rx := rx, closed := false } := by
  obtain ⟨more, hmore⟩ := hpre
  have hstream : q ++ chunk ++ more = stream rest := by
    rw [h.arrived, stream_append] at hmore
    simpa only [List.append_assoc, List.append_cancel_left_eq] using hmore
  have hclean' : ¬CutsLargeHeader cb rest q.length := by
    rw [h.arrived, List.length_append,
      cutsLargeHeader_append fun f hf => hlegal f (List.mem_append_left _ hf)] at hclean
    exact hclean
  obtain ⟨done', rest', q', pend', rfl, hat, hstream', hfeed⟩ := feed_clean fully hcb chunk.length
    (fun f hf => hlegal f (List.mem_append_right _ hf)) h.next hclean' hne hlen (Nat.le_refl _)
    hstream
  obtain ⟨rx, status, hrx, hposts, hout⟩ := tcpRxLoop_refines fully hcb hcb' hparser chunk.length
    h.rep h.wf hne hlen (Nat.le_refl _)
  rw [hfeed] at hposts hout
  simp only [if_true] at hout
  obtain ⟨rfl, hrep, hwf⟩ := hout
  refine ⟨rx, done ++ done', rest', q', pend', hrx, by rw [List.append_assoc], hat, ?_, hrep, hwf,
    ?_⟩
  · -- what arrived is followed by the same bytes in both readings
    have hsame : q ++ chunk = stream done' ++ q' := by
      rw [stream_append, ← hstream', ← List.append_assoc] at hstream
      exact List.append_cancel_right hstream
    rw [h.arrived, List.append_assoc, hsame, stream_append, List.append_assoc]
  · rw [List.map_append, ← h.posts]
    exact hposts

end Receiver

/-! ## The whole way -/

section Delivery

variable [DecidableEq Tid] {cb : Nat} {parser : List UInt8 → Int × Int}
  {builder : Nat → Except Int (List.Vector UInt8 cb)} {fully nonblock : Bool}

/-- The steps that leave cut packets alone, and the chunks that follow no cut in the header of a
large packet. -/
def Careful (cb : Nat) (s : Connection Tid) : Event Tid → Prop
  | .send act => Disciplined s.tx act
  | .receive _ => ∀ calls, Sending s.tx calls →
      ¬CutsLargeHeader cb (frames cb calls) s.arrived.length

/-- What the user of the receiving end has got: the first of the messages that were written, whole,
in order and once, and all of them when all the bytes have arrived.  The link stays open, and takes
what comes next. -/
structure Delivered (cb : Nat) (parser : List UInt8 → Int × Int)
    (builder : Nat → Except Int (List.Vector UInt8 cb)) (fully nonblock : Bool)
    (wrote : TcpWrite → Prop) (s : Connection Tid) : Prop where
  opened : s.closed = false
  posts : ∃ calls, Sending s.tx calls ∧ (calls.map Call.id).Nodup ∧
    (∀ f ∈ frames cb calls, ∃ w, wrote w ∧ w.serialize = .ok f.payload) ∧
    s.rx.posts <+: (frames cb calls).map (Frame.expected fully) ∧
    (s.arrived = packets calls → s.rx.posts = (frames cb calls).map (Frame.expected fully))
  takes : ∀ chunk, Arrives s chunk → Careful cb s (.receive chunk) →
    ∃ s', connectionStep cb parser builder fully nonblock s (.receive chunk) = some s' ∧
      s'.closed = false

/-- The invariant of both ends. -/
structure Linked (cb : Nat) (parser : List UInt8 → Int × Int) (fully : Bool)
    (wrote : TcpWrite → Prop) (s : Connection Tid) : Prop where
  inv : Inv s.tx
  numbered : s.tx.Numbered (· ≠ ·)
  messages : Messages cb parser wrote s.tx
  opened : s.closed = false
  received : ∃ calls done rest q pend, Sending s.tx calls ∧ frames cb calls = done ++ rest ∧
    Received cb parser fully done rest q pend s

variable {wrote : TcpWrite → Prop}

omit [DecidableEq Tid] in
theorem linked_connection (hcb : 0 < cb) {buffer : List UInt8}
    (hbuffer : buffer.length = tcpBufferSize) :
    Linked cb parser fully wrote (connection buffer : Connection Tid) where
  inv := inv_initial
  numbered := numbered_initial _
  messages := ⟨fun _ _ h => (nomatch h), fun _ h => (nomatch h)⟩
  opened := rfl
  received := ⟨[], [], [], [], .parsing [], .quiet fun _ => rfl, rfl, ⟨rfl, rfl⟩, rfl,
    ⟨rfl, hbuffer, rfl, rfl⟩, .inl hcb, rfl⟩

omit [DecidableEq Tid] in
theorem Messages.legal {s : State Tid} (h : Messages cb parser wrote s) {calls : List Call}
    (hs : Sending s calls) : ∀ f ∈ frames cb calls, f.Legal cb parser := by
  intro f hf
  obtain ⟨c, hc, rfl⟩ := List.mem_map.mp hf
  exact (h.of_sending hs c hc).legal

/-- A chunk that arrives. -/
theorem Linked.receive (builder : Nat → Except Int (List.Vector UInt8 cb)) (nonblock : Bool)
    (hcb : 0 < cb) (hcb' : cb ≤ tcpBufferSize)
    (hparser : ∀ buffer, cb ≤ buffer.length → parser buffer = parser (buffer.take cb))
    {s : Connection Tid} (h : Linked cb parser fully wrote s) {chunk : List UInt8}
    (harr : Arrives s chunk) (hcare : Careful cb s (.receive chunk)) :
    ∃ s', connectionStep cb parser builder fully nonblock s (.receive chunk) = some s' ∧
      Linked cb parser fully wrote s' := by
  obtain ⟨hne, hlen, hpre⟩ := harr
  obtain ⟨calls, done, rest, q, pend, hs, hframes, hrec⟩ := h.received
  have hlegal := h.messages.legal hs
  rw [hframes] at hlegal
  have hsent := h.inv.sent_prefix hs
  rw [← stream_frames cb, hframes] at hsent
  have hclean := hcare calls hs
  rw [hframes] at hclean
  obtain ⟨rx, done', rest', q', pend', hrx, hsplit, hrec'⟩ :=
    received_receive hcb hcb' hparser hrec hlegal hne hlen (hpre.trans hsent) hclean
  refine ⟨{ s with arrived := s.arrived ++ chunk, rx := rx, closed := false }, ?_, h.inv,
    h.numbered, h.messages, rfl, calls, done', rest', q', pend', hs, hframes.trans hsplit, hrec'⟩
  rw [connectionStep, if_pos ⟨by rw [h.opened]; rfl, hne, hlen, hpre⟩, hrx]
  rfl

theorem linked_step (hcb : 0 < cb) (hcb' : cb ≤ tcpBufferSize)
    (hparser : ∀ buffer, cb ≤ buffer.length → parser buffer = parser (buffer.take cb))
    (hlegible : Legible cb parser builder) {s s' : Connection Tid} {e : Event Tid}
    (h : Linked cb parser fully wrote s)
    (hwrote : ∀ t w, e = .send (.writer t (.write w)) → wrote w) (hcare : Careful cb s e)
    (hstep : connectionStep cb parser builder fully nonblock s e = some s') :
    Linked cb parser fully wrote s' := by
  cases e with
  | receive chunk =>
    have harr : Arrives s chunk := by
      rw [connectionStep] at hstep
      split at hstep
      · rename_i harr
        exact harr.2
      · cases hstep
    obtain ⟨s'', hstep', h'⟩ := h.receive builder nonblock hcb hcb'
      hparser harr hcare
    rw [hstep, Option.some.injEq] at hstep'
    exact hstep' ▸ h'
  | send act =>
    rw [connectionStep, Option.map_eq_some_iff] at hstep
    obtain ⟨tx, htx, rfl⟩ := hstep
    obtain ⟨calls, done, rest, q, pend, hs, hframes, hrec⟩ := h.received
    obtain ⟨calls', hs', more, rfl⟩ := sending_step h.inv hcare htx hs
    have hmessages := messages_step hlegible h.messages
      (fun t w he => hwrote t w (he ▸ rfl)) htx
    refine ⟨inv_step h.inv hcare htx, numbered_step (fun _ _ h => Nat.ne_of_lt h)
      (fun _ _ _ _ _ h => Nat.ne_of_gt h) h.numbered htx, hmessages, h.opened,
      calls ++ more, done, rest ++ frames cb more, q, pend, hs', ?_, ?_⟩
    · rw [frames, List.map_append, ← frames, hframes, List.append_assoc, frames]
    · refine ⟨hrec.next.append hcb fun f hf => hmessages.legal hs' f ?_, hrec.arrived, hrec.rep,
        hrec.wf, hrec.posts⟩
      rw [frames, List.map_append]
      exact List.mem_append_right _ hf

theorem Linked.delivered (hcb : 0 < cb) (hcb' : cb ≤ tcpBufferSize)
    (hparser : ∀ buffer, cb ≤ buffer.length → parser buffer = parser (buffer.take cb))
    {s : Connection Tid} (h : Linked cb parser fully wrote s) :
    Delivered cb parser builder fully nonblock wrote s := by
  refine ⟨h.opened, ?_, fun chunk harr hcare => ?_⟩
  · obtain ⟨calls, done, rest, q, pend, hs, hframes, hrec⟩ := h.received
    have hlegal := h.messages.legal hs
    have hposts : s.rx.posts = done.map (Frame.expected fully) := by
      rw [hrec.posts]
      refine List.map_congr_left fun f hf => (hlegal f ?_).deliver_eq
      rw [hframes]
      exact List.mem_append_left _ hf
    refine ⟨calls, hs, h.inv.sending_nodup h.numbered hs, fun f hf => ?_, ?_, fun hall => ?_⟩
    · obtain ⟨c, hc, rfl⟩ := List.mem_map.mp hf
      exact (h.messages.of_sending hs c hc).wrote
    · rw [hposts, hframes, List.map_append]
      exact List.prefix_append _ _
    · -- what is pending is shorter than the next packet, so there is none
      cases rest with
      | nil => rw [hposts, hframes, List.append_nil]
      | cons f rest =>
        have hlt := hrec.next.2.1
        rw [hrec.arrived, ← stream_frames cb, hframes, stream_append,
          List.append_cancel_left_eq] at hall
        have := congrArg List.length hall
        rw [stream_cons, List.length_append] at this
        omega
  · obtain ⟨s', hstep, h'⟩ := h.receive builder nonblock hcb hcb'
      hparser harr hcare
    exact ⟨s', hstep, h'.opened⟩

end Delivery

/-- A header of two bytes, the second of which is the length. -/
def shortBuilder (n : Nat) : Except Int (List.Vector UInt8 2) :=
  if n < 256 then .ok ⟨[9, UInt8.ofNat n], rfl⟩ else .error eInval

def shortParser (header : List UInt8) : Int × Int := (0, ((header.getD 1 0).toNat : Int))

theorem shortBuilder_legible : Legible 2 shortParser shortBuilder := by
  intro n header h
  rw [shortBuilder] at h
  split at h
  · rename_i hn
    cases h
    refine ⟨Int.le_refl 0, ?_⟩
    show ((UInt8.ofNat n).toNat : Int) = n
    rw [UInt8.toNat_ofNat_of_lt' hn]
  · cases h

/-- Packets that fit the parse buffer may be cut anywhere. -/
theorem careful_receive_of_fits {cb : Nat} {s : Connection Tid}
    (h : ∀ calls, Sending s.tx calls → ∀ c ∈ calls, c.packet.length ≤ tcpBufferSize)
    (chunk : List UInt8) : Careful cb s (.receive chunk) := by
  rintro calls hs ⟨before, f, after, hframes, hbig, -⟩
  have hf : f ∈ frames cb calls := hframes ▸ List.mem_append_right _ List.mem_cons_self
  obtain ⟨c, hc, rfl⟩ := List.mem_map.mp hf
  rw [frameOf_bytes] at hbig
  exact absurd (h calls hs c hc) (Nat.not_le.mpr hbig)

theorem connectionStep_receive [DecidableEq Tid] {cb : Nat} {parser : List UInt8 → Int × Int}
    {builder : Nat → Except Int (List.Vector UInt8 cb)} {fully nonblock : Bool}
    {s s' : Connection Tid} {chunk : List UInt8}
    (h : connectionStep cb parser builder fully nonblock s (.receive chunk) = some s') :
    s'.tx = s.tx ∧ s'.arrived = s.arrived ++ chunk := by
  rw [connectionStep] at h
  split at h
  · obtain ⟨r, -, rfl⟩ := Option.map_eq_some_iff.mp h
    exact ⟨rfl, rfl⟩
  · cases h

end Tcp

end LibNax
