import LibNax.Tcp.Parse

/-!
# What the receiving side never does

Everything that reaches `tcpParsePkt` is chosen by the peer, and so is what the parser makes of a
header: any status and any length.  The copies of the function have lengths that are differences of
the offset in the parse buffer, the length of the data and the announced size, and `tcpParsePkt` is
undefined when one of them is negative or leaves its buffers.  Here it is always defined.

* `Rx.Inside` — the invariant of the buffers.  While a header is not complete the offset is at most
  its size; behind a complete one the offset is below the size of the packet, and that size fits the
  parse buffer.  A large block is never full.
* `tcpParsePkt_inside` — one piece of data, and `Reachable.inside` any number of them.
* `tcpRxRounds` — the loop of `_tcp_rx` with the offset that it keeps.  Every round takes at least one
  byte, so the loop ends, with the offset inside the receive buffer.

The allocator may have memory for one block and not for the next, and a link may be used on after a
piece of data that was refused; the invariant holds all the same.
-/

set_option autoImplicit false

namespace LibNax

namespace Tcp

open Lib (slice overwrite memcpy memcpy_eq length_overwrite length_slice take_overwrite_of_le)

section Template

variable (template : Template)

/-- The parser of the template looks at the header only. -/
def Template.ReadsHeader : Prop :=
  ∀ parser, template.parser = some parser →
    ∀ buffer : List UInt8, template.cb ≤ buffer.length →
      parser buffer = parser (buffer.take template.cb)

/-- The states that the buffers of a link with this template can be in. -/
inductive Reachable : Rx → Prop
  /-- A new link. -/
  | init (buffer : List UInt8) : buffer.length = tcpBufferSize → Reachable (Rx.init buffer)
  /-- Another piece of data. -/
  | step {s s' : Rx} {link : Link} {data : List UInt8} {overplus : Int} : Reachable s →
      link.template = template → data ≠ [] → data.length ≤ tcpBufferSize →
      tcpParsePkt link s data = some (s', overplus) → Reachable s'

/-- A complete header in the parse buffer announces a packet that is longer than what has arrived of
it, and that fits the buffer. -/
def Rx.Announced (s : Rx) : Prop :=
  ∃ parser, template.parser = some parser ∧
    s.rxParseOffset < (parser (s.rxParseBuffer.take template.cb)).2 + template.cb ∧
    (parser (s.rxParseBuffer.take template.cb)).2 + template.cb ≤ tcpBufferSize

/-- The offsets are inside of the buffers. -/
structure Rx.Inside (s : Rx) : Prop where
  length : s.rxParseBuffer.length = tcpBufferSize
  nonneg : 0 ≤ s.rxParseOffset
  header : s.rxParseOffset ≤ template.cb ∨ s.Announced template
  block : ∀ lbdata, s.lbdata = some lbdata →
    (lbdata.length : Int) = s.lbsize ∧ 0 ≤ s.lboffset ∧ s.lboffset < s.lbsize

variable {template}

/-- A copy that stays in both buffers is defined and keeps the size. -/
theorem memcpy_inside (dst src : List UInt8) {dstoff srcoff n : Int} (hn : 0 ≤ n)
    (hdst : 0 ≤ dstoff ∧ dstoff + n ≤ dst.length) (hsrc : 0 ≤ srcoff ∧ srcoff + n ≤ src.length) :
    ∃ dst', memcpy dst dstoff src srcoff n = some dst' ∧ dst'.length = dst.length ∧
      ∀ k : Nat, (k : Int) ≤ dstoff → dst'.take k = dst.take k := by
  have hlen : (slice src srcoff.toNat n.toNat).length = n.toNat := length_slice (by omega)
  refine ⟨_, if_pos ⟨hn, hdst.1, hdst.2, hsrc⟩, length_overwrite (by omega), ?_⟩
  intro k hk
  exact take_overwrite_of_le _ (by omega) (by omega)

/-- What is between the first and the last offset of the parse buffer. -/
theorem Rx.Inside.offset_le {s : Rx} (h : s.Inside template) (hcb : template.cb ≤ 32) :
    s.rxParseOffset ≤ tcpBufferSize := by
  have hsize : (32 : Nat) ≤ tcpBufferSize := by decide
  rcases h.header with hle | ⟨_, _, hlt, hfit⟩
  · omega
  · omega

theorem Rx.Inside.lbdata_none {s : Rx} (h : s.Inside template) (hlb : s.lbMarked = false) :
    s.lbdata = none := by
  cases hdata : s.lbdata with
  | none => rfl
  | some lbdata =>
    have := h.block lbdata hdata
    rw [lbMarked, hdata, Option.isSome_some, Bool.true_and, decide_eq_false_iff_not] at hlb
    omega

/-- A piece of data was taken: the buffers are still in order, and fewer bytes are left over than
there were. -/
def Taken (template : Template) (data : List UInt8) (result : Option (Rx × Int)) : Prop :=
  ∃ s' overplus, result = some (s', overplus) ∧ s'.Inside template ∧
    (overplus = -1 ∨ 0 ≤ overplus ∧ overplus < data.length)

theorem Rx.Inside.post {s : Rx} (h : s.Inside template) (buffer : List UInt8) (off cb : Int) :
    (s.post buffer off cb).Inside template :=
  ⟨h.length, h.nonneg, h.header, h.block⟩

/-- Without a block and with an empty parse buffer nothing is left to be in order. -/
theorem Rx.inside_empty {s : Rx} (hlen : s.rxParseBuffer.length = tcpBufferSize)
    (hoff : s.rxParseOffset = 0) (hlb : s.lbdata = none) : s.Inside template := by
  refine ⟨hlen, by omega, .inl (by omega), ?_⟩
  intro lbdata h
  rw [hlb] at h
  cases h

theorem tcpParseMarkedLb_inside {link : Link} {s : Rx} {data : List UInt8}
    (h : s.Inside template) (hlb : s.lbMarked = true) (hne : data ≠ []) :
    Taken template data (tcpParseMarkedLb link s data) := by
  have hpos : 0 < data.length := List.length_pos_iff.mpr hne
  cases hdata : s.lbdata with
  | none => rw [Rx.lbMarked, hdata] at hlb; cases hlb
  | some lbdata =>
    obtain ⟨hlen, hnn, hlt⟩ := h.block lbdata hdata
    unfold tcpParseMarkedLb
    simp only [hdata, Option.bind_eq_bind, Option.bind_some]
    by_cases hmore : (data.length : Int) + s.lboffset < s.lbsize
    · obtain ⟨lbdata', hcpy, hlen', -⟩ := memcpy_inside lbdata data
        (show (0 : Int) ≤ data.length by omega) ⟨hnn, by omega⟩ ⟨Int.le_refl 0, by omega⟩
      rw [if_pos hmore, hcpy]
      refine ⟨_, _, rfl, ⟨h.length, h.nonneg, h.header, ?_⟩, .inr ⟨Int.le_refl 0, by omega⟩⟩
      rintro _ ⟨⟩
      have hoff : 0 ≤ s.lboffset + data.length ∧ s.lboffset + data.length < s.lbsize :=
        ⟨by omega, by omega⟩
      exact ⟨by rw [hlen', hlen], hoff⟩
    · obtain ⟨lbdata', hcpy, hlen', -⟩ := memcpy_inside lbdata data
        (show 0 ≤ s.lbsize - s.lboffset by omega) ⟨hnn, by omega⟩ ⟨Int.le_refl 0, by omega⟩
      rw [if_neg hmore, hcpy]
      refine ⟨_, _, rfl, ?_, .inr ⟨by omega, by omega⟩⟩
      split
      · exact ⟨h.length, h.nonneg, h.header, by rintro _ ⟨⟩⟩
      · exact ⟨h.length, h.nonneg, h.header, by rintro _ ⟨⟩⟩

/-- Once the header is complete: `used` bytes of the data went into it. -/
theorem tcpParseBody_inside {link : Link} {s : Rx} {data : List UInt8} {used : Int}
    (hlink : link.template = template) (hcb : template.cb ≤ 32) (hreads : template.ReadsHeader)
    (h : s.Inside template) (hlb : s.lbdata = none) (hheader : template.cb ≤ s.rxParseOffset)
    (hne : data ≠ []) (hlen : data.length ≤ tcpBufferSize) (hused : 0 ≤ used)
    (hused' : used ≤ data.length) : Taken template data (tcpParseBody link s data used) := by
  have hpos : 0 < data.length := List.length_pos_iff.mpr hne
  have hoff := h.offset_le hcb
  have hsize := h.length
  have refused : Taken template data (some (s, -1)) := ⟨s, -1, rfl, h, .inl rfl⟩
  unfold tcpParseBody
  simp only [hlink]
  cases hparser : template.parser with
  | none => exact refused
  | some parser =>
    have hsame : parser (s.rxParseBuffer.take s.rxParseOffset.toNat) =
        parser (s.rxParseBuffer.take template.cb) := by
      rw [hreads parser hparser _ (by rw [List.length_take]; omega), List.take_take,
        Nat.min_eq_left (by omega)]
    simp only [hsame]
    -- the packet is longer than what has arrived of it, if its length is acceptable
    have htotal : 0 < (parser (s.rxParseBuffer.take template.cb)).2 →
        s.rxParseOffset < (parser (s.rxParseBuffer.take template.cb)).2 + template.cb := by
      intro hgt
      rcases h.header with hle | ⟨parser', hparser', hlt, -⟩
      · omega
      · rw [hparser] at hparser'
        cases hparser'
        exact hlt
    generalize hout : parser (s.rxParseBuffer.take template.cb) = out at htotal
    obtain ⟨status, userDataSize⟩ := out
    simp only at htotal ⊢
    split
    · exact refused
    split
    · exact refused
    have hgt := htotal (by omega)
    split
    · split
      · exact refused
      · obtain ⟨lbdata, hcpy, hlen', -⟩ := memcpy_inside
          (List.replicate (userDataSize + template.cb).toNat 0) data
          (show (0 : Int) ≤ data.length by omega)
          ⟨Int.le_refl 0, by rw [List.length_replicate]; omega⟩ ⟨Int.le_refl 0, by omega⟩
        rw [List.length_replicate] at hlen'
        rw [hcpy]
        refine ⟨_, _, rfl, ⟨h.length, Int.le_refl 0, .inl (by simp only; omega), ?_⟩,
          .inr ⟨Int.le_refl 0, by omega⟩⟩
        rintro _ ⟨⟩
        exact ⟨by simp only; omega, by simp only; omega, by simp only; omega⟩
    · split
      · -- the rest of the packet
        obtain ⟨buffer, hcpy, hlen', -⟩ := memcpy_inside s.rxParseBuffer data
          (show 0 ≤ userDataSize + template.cb - s.rxParseOffset by omega)
          ⟨h.nonneg, by omega⟩ ⟨hused, by omega⟩
        simp only [hcpy, Option.bind_eq_bind, Option.bind_some]
        refine ⟨_, _, rfl, ?_, .inr ⟨by omega, by omega⟩⟩
        split
        · exact Rx.inside_empty (hlen'.trans h.length) rfl hlb
        · exact Rx.inside_empty (hlen'.trans h.length) rfl hlb
      · -- more of it, behind the header
        obtain ⟨buffer, hcpy, hlen', hkeep⟩ := memcpy_inside s.rxParseBuffer data
          (show 0 ≤ (data.length : Int) - used by omega) ⟨h.nonneg, by omega⟩ ⟨hused, by omega⟩
        rw [hcpy]
        refine ⟨_, _, rfl, ⟨hlen'.trans h.length, ?_, .inr ⟨parser, hparser, ?_⟩, h.block⟩,
          .inr ⟨Int.le_refl 0, by omega⟩⟩
        · have := h.nonneg
          simp only
          omega
        · simp only [hkeep _ hheader, hout]
          omega

/-- **One piece of data.** -/
theorem tcpParsePkt_inside {link : Link} {s : Rx} {data : List UInt8}
    (hlink : link.template = template) (hcb : template.cb ≤ 32) (hreads : template.ReadsHeader)
    (h : s.Inside template) (hne : data ≠ []) (hlen : data.length ≤ tcpBufferSize) :
    Taken template data (tcpParsePkt link s data) := by
  have hpos : 0 < data.length := List.length_pos_iff.mpr hne
  have hsize : (32 : Nat) < tcpBufferSize := by decide
  have hlength := h.length
  have hnn := h.nonneg
  unfold tcpParsePkt
  simp only [hlink]
  rw [if_neg (by omega)]
  split
  · exact ⟨_, _, rfl, ⟨h.length, Int.le_refl 0, .inl (by simp only; omega), h.block⟩,
      .inr ⟨Int.le_refl 0, by omega⟩⟩
  split
  · exact tcpParseMarkedLb_inside h ‹_› hne
  have hlb := h.lbdata_none (Bool.eq_false_iff.mpr ‹_›)
  split
  · -- still less than a header
    obtain ⟨buffer, hcpy, hlen', -⟩ := memcpy_inside s.rxParseBuffer data
      (show (0 : Int) ≤ data.length by omega) ⟨hnn, by omega⟩ ⟨Int.le_refl 0, by omega⟩
    rw [hcpy]
    exact ⟨_, _, rfl, ⟨hlen'.trans hlength, by simp only; omega, .inl (by simp only; omega),
      h.block⟩, .inr ⟨Int.le_refl 0, by omega⟩⟩
  split
  · obtain ⟨buffer, hcpy, hlen', -⟩ := memcpy_inside s.rxParseBuffer data
      (show 0 ≤ template.cb - s.rxParseOffset by omega) ⟨hnn, by omega⟩ ⟨Int.le_refl 0, by omega⟩
    simp only [hcpy, Option.bind_eq_bind, Option.bind_some]
    exact tcpParseBody_inside hlink hcb hreads ⟨hlen'.trans hlength, by simp only; omega,
      .inl (Int.le_refl _), h.block⟩ hlb (Int.le_refl _) hne hlen (by omega) (by omega)
  · exact tcpParseBody_inside hlink hcb hreads h hlb (by omega) hne hlen (Int.le_refl 0) (by omega)

theorem Reachable.inside {s : Rx} (hs : Reachable template s) (hcb : template.cb ≤ 32)
    (hreads : template.ReadsHeader) : s.Inside template := by
  induction hs with
  | init buffer hlen => exact Rx.inside_empty hlen rfl rfl
  | step _ hlink hne hlen hpkt ih =>
    obtain ⟨s', overplus, heq, hinside, -⟩ := tcpParsePkt_inside hlink hcb hreads ih hne hlen
    rw [hpkt] at heq
    cases heq
    exact hinside

/-! ## The loop over the receive buffer -/

/-- The loop of `_tcp_rx` with `offset` and `cpcb` as the source keeps them.  The result is the
state, the status, and the offset at the end. -/
def tcpRxRounds (link : Link) (rxBuffer : List UInt8) :
    Nat → Rx → Int → Int → Option (Rx × Int × Int)
  | 0, _, _, _ => none
  | fuel + 1, s, offset, cpcb =>
    if 0 ≤ offset ∧ 0 ≤ cpcb ∧ offset + cpcb ≤ rxBuffer.length then do
      let (s, overplus) ← tcpParsePkt link s (slice rxBuffer offset.toNat cpcb.toNat)
      if overplus < 0 then return (s, nspStatusFatal, offset)
      else
        let offset := offset + (cpcb - overplus)
        if overplus > 0 then tcpRxRounds link rxBuffer fuel s offset overplus
        else return (s, 0, offset)
    else none

/-- Every round leaves less than it found, so as many rounds as there are bytes are enough. -/
theorem tcpRxRounds_inside {link : Link} {rxBuffer : List UInt8} (hlink : link.template = template)
    (hcb : template.cb ≤ 32) (hreads : template.ReadsHeader)
    (hlen : rxBuffer.length ≤ tcpBufferSize) :
    ∀ (fuel : Nat) {s : Rx} {offset : Nat}, s.Inside template → offset < rxBuffer.length →
      rxBuffer.length ≤ offset + fuel →
      ∃ s' status, ∃ offset' : Nat,
        tcpRxRounds link rxBuffer fuel s offset (rxBuffer.length - offset : Nat) =
          some (s', status, (offset' : Int)) ∧
        tcpRxLoop link fuel s (rxBuffer.drop offset) = some (s', status) ∧
        s'.Inside template ∧ offset' ≤ rxBuffer.length
  | 0, s, offset, _, hlt, hfuel => by omega
  | fuel + 1, s, offset, h, hlt, hfuel => by
    have hlendrop : (rxBuffer.drop offset).length = rxBuffer.length - offset := List.length_drop
    have hslice : slice rxBuffer offset (rxBuffer.length - offset) = rxBuffer.drop offset := by
      rw [slice, ← hlendrop, List.take_length]
    have hne : rxBuffer.drop offset ≠ [] := by
      rw [Ne, List.drop_eq_nil_iff]
      omega
    obtain ⟨s₁, overplus, hpkt, hinside, hleft⟩ :=
      tcpParsePkt_inside hlink hcb hreads h hne (by omega)
    rw [tcpRxRounds, if_pos (by omega), Int.toNat_natCast, Int.toNat_natCast, hslice, tcpRxLoop,
      hpkt]
    simp only [Option.bind_eq_bind, Option.bind_some]
    rcases hleft with rfl | ⟨hnn, hless⟩
    · exact ⟨s₁, nspStatusFatal, offset, rfl, rfl, hinside, by omega⟩
    · obtain ⟨n, rfl⟩ := Int.eq_ofNat_of_zero_le hnn
      have hnot : ¬(n : Int) < 0 := by omega
      simp only [if_neg hnot]
      have hoffset : (offset : Int) + ((rxBuffer.length - offset : Nat) - (n : Int)) =
          (rxBuffer.length - n : Nat) := by omega
      rw [hoffset]
      by_cases hn : n = 0
      · subst hn
        exact ⟨s₁, 0, rxBuffer.length, rfl, rfl, hinside, by omega⟩
      · have hdrop : (rxBuffer.drop offset).drop ((rxBuffer.drop offset).length - (n : Int).toNat) =
            rxBuffer.drop (rxBuffer.length - n) := by
          rw [List.drop_drop, hlendrop, Int.toNat_natCast]
          congr 1
          omega
        have hrest : rxBuffer.length - (rxBuffer.length - n) = n := by omega
        have hstep := tcpRxRounds_inside hlink hcb hreads hlen fuel hinside
          (show rxBuffer.length - n < rxBuffer.length by omega) (by omega)
        have hmore : (n : Int) > 0 := by omega
        simp only [if_pos hmore, hdrop]
        rwa [hrest] at hstep

/-- **The receiving side stays in its buffers and returns**, whatever a parser that looks at the
header makes of it.  For a piece of data in any state that can occur: no copy leaves the parse
buffer, the large block or the data, and none has a negative length, since the result is defined;
the buffers keep their sizes; and what is returned is `-1` or less than was given.  So the loop over
the receive buffer ends, with the offset inside of it, and it is the loop of `tcpRx`. -/
theorem tcpParsePkt_safe (hcb : template.cb ≤ 32) (hreads : template.ReadsHeader) {s : Rx}
    (hs : Reachable template s) {link : Link} (hlink : link.template = template)
    {data : List UInt8} (hne : data ≠ []) (hlen : data.length ≤ tcpBufferSize) :
    (∃ s' overplus, tcpParsePkt link s data = some (s', overplus) ∧
      s'.rxParseBuffer.length = tcpBufferSize ∧
      (∀ lbdata, s'.lbdata = some lbdata → (lbdata.length : Int) = s'.lbsize) ∧
      (overplus = -1 ∨ 0 ≤ overplus ∧ overplus < data.length)) ∧
    ∃ s' status offset, tcpRxRounds link data data.length s 0 data.length =
        some (s', status, offset) ∧ 0 ≤ offset ∧ offset ≤ data.length ∧
      tcpRx link s (.data data) = some (s', status) := by
  have hinside := hs.inside hcb hreads
  have hpos : 0 < data.length := List.length_pos_iff.mpr hne
  constructor
  · obtain ⟨s', overplus, hpkt, h', hover⟩ :=
      tcpParsePkt_inside hlink hcb hreads hinside hne hlen
    exact ⟨s', overplus, hpkt, h'.length, fun lbdata hlb => (h'.block lbdata hlb).1, hover⟩
  · obtain ⟨s', status, offset, hrounds, hloop, -, hle⟩ := tcpRxRounds_inside hlink hcb hreads hlen
      data.length hinside hpos (by omega)
    exact ⟨s', status, offset, hrounds, by omega, by omega, hloop⟩

end Template

/-- A header of two bytes, the second of which is the length of the user data. -/
def twoByteHeader : Template := ⟨2, some fun header => (0, ((header.getD 1 0).toNat : Int))⟩

theorem twoByteHeader_readsHeader : twoByteHeader.ReadsHeader := by
  rintro _ ⟨⟩ buffer _
  have hlt : 1 < twoByteHeader.cb := by decide
  simp only [List.getD_eq_getElem?_getD, List.getElem?_take_of_lt hlt]

theorem tcpParsePkt_safe_twoByteHeader :
    ∃ s' overplus, tcpParsePkt ⟨twoByteHeader, false, fun _ => true⟩
        (Rx.init (List.replicate tcpBufferSize 0)) [0, 1, 7, 0] = some (s', overplus) ∧
      s'.rxParseBuffer.length = tcpBufferSize ∧
      (∀ lbdata, s'.lbdata = some lbdata → (lbdata.length : Int) = s'.lbsize) ∧
      (overplus = -1 ∨ 0 ≤ overplus ∧ overplus < 4) :=
  (tcpParsePkt_safe (by decide) twoByteHeader_readsHeader (.init _ List.length_replicate) rfl
    (by decide) (by decide)).1

end Tcp

end LibNax
