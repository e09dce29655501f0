import LibNax.Tcp.Parse

/-!
# What a link has pending

Between two pieces of data the buffers of a link hold the beginning of one packet.  `Pending` says
which bytes, and whether they are on their way into the parse buffer or into a large block;
`parse` is what a piece of data does to it, and `tcpParsePkt_refines` that the code does the same.

The assumptions are those of a link that uses a template: the header has between one and as many
bytes as the buffer holds, the parser looks at the header only, and the allocator has memory.
-/

set_option autoImplicit false

namespace LibNax

namespace Tcp

open Lib (slice overwrite memcpy memcpy_eq length_overwrite length_slice take_overwrite)

/-- The beginning of a packet. -/
inductive Pending where
  /-- In the parse buffer. -/
  | parsing (q : List UInt8)
  /-- In a large block of the given size. -/
  | large (total : Nat) (q : List UInt8)

/-- The bytes that are pending. -/
def Pending.bytes : Pending → List UInt8
  | .parsing q => q
  | .large _ q => q

section Template

variable (cb : Nat) (parser : List UInt8 → Int × Int) (fully : Bool)

/-- The link with this template, whose allocator always has memory. -/
def linkOf : Link := ⟨⟨cb, some parser⟩, fully, fun _ => true⟩

/-- The length of the packet with this header, if the link accepts it. -/
def packetLength (header : List UInt8) : Option Nat :=
  if (parser header).1 < 0 then none
  else if (parser header).2 > tcpMaximumPacketSize ∨ (parser header).2 ≤ 0 then none
  else some ((parser header).2.toNat + cb)

/-- What the user gets of a packet. -/
def deliver (packet : List UInt8) : List UInt8 := if fully then packet else packet.drop cb

/-- What a piece of data does: what is pending then, what the user gets, and how many bytes are left
over, none when the link has to be closed. -/
def parse : Pending → List UInt8 → Pending × List (List UInt8) × Option Nat
  | .large total q, data =>
    if q.length + data.length < total then (.large total (q ++ data), [], some 0)
    else (.parsing [], [deliver cb fully ((q ++ data).take total)],
      some (q.length + data.length - total))
  | .parsing q, data =>
    if q.length + data.length < cb then (.parsing (q ++ data), [], some 0)
    else
      match packetLength cb parser ((q ++ data).take cb) with
      | none => (.parsing q, [], none)
      | some total =>
        -- the bytes of the header that were pending are dropped here
        if tcpBufferSize < total then (.large total data, [], some 0)
        else if total ≤ q.length + data.length then
          (.parsing [], [deliver cb fully ((q ++ data).take total)],
            some (q.length + data.length - total))
        else (.parsing (q ++ data), [], some 0)

/-- What can be pending: part of a header, part of a packet that fits the parse buffer, or part of a
large one. -/
def Pending.Wf : Pending → Prop
  | .parsing q => q.length < cb ∨
      ∃ total, packetLength cb parser (q.take cb) = some total ∧ total ≤ tcpBufferSize ∧
        q.length < total
  | .large total q => tcpBufferSize < total ∧ q.length < total

/-- The buffers hold what is pending. -/
def Rep (s : Rx) : Pending → Prop
  | .parsing q => s.lbdata = none ∧ s.rxParseBuffer.length = tcpBufferSize ∧
      s.rxParseOffset = q.length ∧ s.rxParseBuffer.take q.length = q
  | .large total q => ∃ lbdata, s.lbdata = some lbdata ∧ lbdata.length = total ∧
      s.lbsize = total ∧ s.lboffset = q.length ∧ lbdata.take q.length = q ∧
      s.rxParseBuffer.length = tcpBufferSize ∧ s.rxParseOffset = 0

variable {cb parser fully}

theorem packetLength_gt {header : List UInt8} {total : Nat}
    (h : packetLength cb parser header = some total) : cb < total := by
  unfold packetLength at h
  split at h
  · cases h
  · split at h
    · cases h
    · cases h
      omega

/-- Appending to the filled part of a buffer. -/
theorem memcpy_append {buffer q : List UInt8} (data : List UInt8) (used n : Nat)
    (hq : buffer.take q.length = q) (hfit : q.length + n ≤ buffer.length)
    (hn : used + n ≤ data.length) :
    ∃ buffer', memcpy buffer q.length data used n = some buffer' ∧
      buffer'.length = buffer.length ∧ buffer'.take (q.length + n) = q ++ slice data used n := by
  have hlen := length_slice (l := data) hn
  refine ⟨_, memcpy_eq _ _ hfit hn, length_overwrite (by omega), ?_⟩
  have hle : q.length ≤ buffer.length := by omega
  have htake := take_overwrite (slice data used n) hle
  rwa [hlen, hq] at htake

/-- The code did what `parse` says: it returned, the user got the same, the number of bytes left
over is the same, and the buffers hold what is pending. -/
def Matches (posts : List (List UInt8)) (out : Pending × List (List UInt8) × Option Nat)
    (result : Option (Rx × Int)) : Prop :=
  ∃ s' r, result = some (s', r) ∧ s'.posts = posts ++ out.2.1 ∧
    match out.2.2 with
    | none => r < 0
    | some n => r = n ∧ Rep s' out.1

variable (fully) in
/-- What is posted of a complete packet. -/
theorem post_deliver (s : Rx) {buffer packet : List UInt8} {total : Nat} (hcb : cb ≤ total)
    (hpacket : buffer.take total = packet) :
    (if fully then s.post buffer 0 (total : Int) else s.post buffer cb ((total : Int) - cb)) =
      { s with posts := s.posts ++ [deliver cb fully packet] } := by
  have hsub : ((total : Int) - cb).toNat = total - cb := by omega
  unfold Rx.post deliver
  split
  · simp only [Int.toNat_zero, List.drop_zero, Int.toNat_natCast, hpacket]
  · simp only [Int.toNat_natCast, hsub, ← hpacket, List.drop_take]

theorem tcpParseMarkedLb_refines {s : Rx} {total : Nat} {q data : List UInt8}
    (hrep : Rep s (.large total q)) (hlt : q.length < total) (hcb : cb ≤ total) :
    Matches s.posts (parse cb parser fully (.large total q) data)
      (tcpParseMarkedLb (linkOf cb parser fully) s data) := by
  obtain ⟨lbdata, hlb, hlen, hsize, hoff, hq, hbuf, hrxoff⟩ := hrep
  unfold tcpParseMarkedLb parse
  simp only [hlb, hsize, hoff, Option.bind_eq_bind, Option.bind_some, linkOf]
  by_cases hmore : q.length + data.length < total
  · obtain ⟨lbdata', hcpy, hlen', hq'⟩ := memcpy_append data 0 data.length hq (by omega) (by omega)
    rw [if_pos hmore, if_pos (show (data.length : Int) + q.length < total by omega)]
    rw [Int.natCast_zero] at hcpy
    rw [hcpy]
    refine ⟨_, _, rfl, by simp, rfl, lbdata', rfl, by omega, rfl, ?_, ?_, hbuf, hrxoff⟩
    · simp
    · rw [List.length_append, hq', slice, List.drop_zero, List.take_length]
  · obtain ⟨lbdata', hcpy, hlen', hq'⟩ :=
      memcpy_append data 0 (total - q.length) hq (by omega) (by omega)
    rw [if_neg hmore, if_neg (show ¬(data.length : Int) + q.length < total by omega)]
    have hsub : ((total - q.length : Nat) : Int) = (total : Int) - q.length := by omega
    rw [Int.natCast_zero, hsub] at hcpy
    rw [hcpy]
    have htake : lbdata'.take total = (q ++ data).take total := by
      have hadd : q.length + (total - q.length) = total := by omega
      rw [hadd] at hq'
      rw [hq', slice, List.drop_zero, List.take_append, List.take_of_length_le (l := q) (by omega)]
    simp only [Option.bind_some, post_deliver fully s hcb htake]
    refine ⟨_, _, rfl, rfl, ?_, rfl, hbuf, ?_, by simp⟩
    · omega
    · rw [hrxoff, List.length_nil, Int.natCast_zero]

/-- The packet length that the code computes once the header is complete. -/
theorem tcpParseBody_refines {s : Rx} {q data : List UInt8} {used : Nat} {header : List UInt8}
    (hlb : s.lbdata = none) (hbuf : s.rxParseBuffer.length = tcpBufferSize)
    (hoff : s.rxParseOffset = q.length) (hq : s.rxParseBuffer.take q.length = q)
    (hused : used ≤ data.length) (hlen : data.length ≤ tcpBufferSize)
    (hheader : parser q = parser header)
    (hfit : ∀ total, packetLength cb parser header = some total → total ≤ tcpBufferSize →
      q.length < total) :
    Matches s.posts
      (match packetLength cb parser header with
        | none => (.parsing q, [], none)
        | some total =>
          if tcpBufferSize < total then (.large total data, [], some 0)
          else if total ≤ q.length + (data.length - used) then
            (.parsing [], [deliver cb fully ((q ++ data.drop used).take total)],
              some (q.length + (data.length - used) - total))
          else (.parsing (q ++ data.drop used), [], some 0))
      (tcpParseBody (linkOf cb parser fully) s data used) := by
  unfold tcpParseBody
  simp only [linkOf, hoff, Int.toNat_natCast, hq, hheader]
  unfold packetLength at hfit ⊢
  by_cases hstatus : (parser header).1 < 0
  · simp only [hstatus, if_true]
    exact ⟨s, -1, rfl, by simp, by simp⟩
  · by_cases hsize : (parser header).2 > tcpMaximumPacketSize ∨ (parser header).2 ≤ 0
    · simp only [hstatus, hsize, if_true, if_false]
      exact ⟨s, -1, rfl, by simp, by simp⟩
    · obtain ⟨user, huser⟩ : ∃ user : Nat, (parser header).2 = user :=
        ⟨(parser header).2.toNat, by omega⟩
      rw [huser] at hsize
      simp only [hstatus, hsize, if_false, Option.some.injEq, forall_eq', huser,
        Int.toNat_natCast] at hfit ⊢
      by_cases hlarge : tcpBufferSize < user + cb
      · rw [if_pos hlarge, if_pos (show (user : Int) + cb > tcpBufferSize by omega)]
        have htotal : ((user : Int) + cb).toNat = user + cb := by omega
        have hcpy := @memcpy_eq _ (List.replicate (user + cb) (0 : UInt8)) data 0 0 data.length
          (by simp; omega) (by omega)
        rw [Int.natCast_zero] at hcpy
        simp only [htotal, hcpy, Bool.not_true, Bool.false_eq_true, if_false,
          Option.bind_eq_bind, Option.bind_some]
        refine ⟨_, _, rfl, by simp, rfl, _, rfl, ?_, ?_, rfl, ?_, hbuf, rfl⟩
        · rw [length_overwrite]
          · simp
          · rw [length_slice (by omega)]
            simp
            omega
        · simp
        · have htake := take_overwrite (l := List.replicate (user + cb) (0 : UInt8))
            (slice data 0 data.length) (Nat.zero_le _)
          rw [length_slice (by omega)] at htake
          simpa [slice] using htake
      · rw [if_neg hlarge, if_neg (show ¬(user : Int) + cb > tcpBufferSize by omega)]
        have hqlt := hfit (by omega)
        by_cases hfull : user + cb ≤ q.length + (data.length - used)
        · rw [if_pos hfull, if_pos (show (q.length : Int) + ((data.length : Int) - used) ≥
            (user : Int) + cb by omega)]
          obtain ⟨buffer, hcpy, hlen', hq'⟩ :=
            memcpy_append data used (user + cb - q.length) hq (by omega) (by omega)
          have hsub : ((user + cb - q.length : Nat) : Int) = (user : Int) + cb - q.length :=
            by omega
          rw [hsub] at hcpy
          have htake : buffer.take (user + cb) = (q ++ data.drop used).take (user + cb) := by
            have hadd : q.length + (user + cb - q.length) = user + cb := by omega
            rw [hadd] at hq'
            rw [hq', slice, List.take_append, List.take_of_length_le (l := q) (by omega)]
          have hpost := post_deliver fully
            { s with rxParseBuffer := buffer, rxParseOffset := q.length }
            (Nat.le_add_left cb user) htake
          have hcast : ((user + cb : Nat) : Int) - cb = user := by omega
          rw [hcast, Int.natCast_add] at hpost
          simp only [hcpy, Option.bind_eq_bind, Option.bind_some, hpost]
          refine ⟨_, _, rfl, rfl, ?_, hlb, ?_, rfl, by simp⟩
          · omega
          · exact hlen'.trans hbuf
        · rw [if_neg hfull, if_neg (show ¬(q.length : Int) + ((data.length : Int) - used) ≥
            (user : Int) + cb by omega)]
          obtain ⟨buffer, hcpy, hlen', hq'⟩ :=
            memcpy_append data used (data.length - used) hq (by omega) (by omega)
          have hsub : ((data.length - used : Nat) : Int) = (data.length : Int) - used := by omega
          rw [hsub] at hcpy
          simp only [hcpy, Option.bind_eq_bind, Option.bind_some]
          refine ⟨_, _, rfl, by simp, rfl, hlb, ?_, ?_, ?_⟩
          · exact hlen'.trans hbuf
          · simp only [List.length_append, List.length_drop]
            omega
          · rw [List.length_append, List.length_drop, hq', slice,
              List.take_of_length_le (by simp)]

variable (fully) in
/-- **The code does what `parse` says.** -/
theorem tcpParsePkt_refines (hcb : 0 < cb) (hcb' : cb ≤ tcpBufferSize)
    (hparser : ∀ buffer, cb ≤ buffer.length → parser buffer = parser (buffer.take cb)) {s : Rx}
    {pend : Pending} {data : List UInt8} (hrep : Rep s pend) (hwf : pend.Wf cb parser)
    (hdata : data ≠ []) (hlen : data.length ≤ tcpBufferSize) :
    Matches s.posts (parse cb parser fully pend data)
      (tcpParsePkt (linkOf cb parser fully) s data) := by
  have hpos : 0 < data.length := List.length_pos_iff.mpr hdata
  unfold tcpParsePkt
  have hne : ¬(data.length : Int) = 0 := by omega
  simp only [linkOf, hne, if_false, Option.isNone_some, Bool.false_eq_true, and_false]
  cases pend with
  | large total q =>
    have hmark : s.lbMarked = true := by
      obtain ⟨lbdata, hlb, -, hsize, -⟩ := hrep
      obtain ⟨hbig, -⟩ := hwf
      simp only [Rx.lbMarked, hlb, hsize, Option.isSome_some, Bool.true_and, decide_eq_true_eq]
      omega
    rw [if_pos hmark]
    exact tcpParseMarkedLb_refines hrep hwf.2 (by have := hwf.1; omega)
  | parsing q =>
    obtain ⟨hlb, hbuf, hoff, hq⟩ := hrep
    have hmark : ¬s.lbMarked = true := by simp [Rx.lbMarked, hlb]
    rw [if_neg hmark]
    simp only [hoff, parse]
    by_cases hshort : q.length + data.length < cb
    · rw [if_pos hshort, if_pos (show (q.length : Int) + data.length < cb by omega)]
      obtain ⟨buffer, hcpy, hlen', hq'⟩ := memcpy_append data 0 data.length hq (by omega) (by omega)
      rw [Int.natCast_zero] at hcpy
      simp only [hcpy, Option.bind_eq_bind, Option.bind_some]
      refine ⟨_, _, rfl, by simp, rfl, hlb, ?_, ?_, ?_⟩
      · exact hlen'.trans hbuf
      · simp
      · rw [List.length_append, hq', slice, List.drop_zero, List.take_length]
    · rw [if_neg hshort, if_neg (show ¬(q.length : Int) + data.length < cb by omega)]
      by_cases hhead : q.length < cb
      · -- the header is completed by this piece of data
        rw [if_pos (show (q.length : Int) < cb by omega)]
        obtain ⟨buffer, hcpy, hlen', hq'⟩ :=
          memcpy_append data 0 (cb - q.length) hq (by omega) (by omega)
        have hsub : ((cb - q.length : Nat) : Int) = (cb : Int) - q.length := by omega
        have hadd : q.length + (cb - q.length) = cb := by omega
        rw [Int.natCast_zero, hsub] at hcpy
        rw [hadd, slice, List.drop_zero] at hq'
        simp only [hcpy, Option.bind_eq_bind, Option.bind_some]
        have htake : (q ++ data).take cb = q ++ data.take (cb - q.length) := by
          rw [List.take_append, List.take_of_length_le (by omega)]
        have hqlen : (q ++ data.take (cb - q.length)).length = cb := by
          rw [List.length_append, List.length_take]
          omega
        have hbody := @tcpParseBody_refines cb parser fully
          { s with rxParseBuffer := buffer, rxParseOffset := cb }
          (q ++ data.take (cb - q.length)) data (cb - q.length) ((q ++ data).take cb) hlb
          (hlen'.trans hbuf) (by rw [hqlen])
          (by rw [hqlen, hq']) (by omega) hlen (by rw [htake])
          (fun total htotal _ => by rw [hqlen]; exact packetLength_gt htotal)
        rw [hqlen, hsub] at hbody
        have hjoin : q ++ data.take (cb - q.length) ++ data.drop (cb - q.length) = q ++ data := by
          rw [List.append_assoc, List.take_append_drop]
        have hsum : cb + (data.length - (cb - q.length)) = q.length + data.length := by omega
        rw [hjoin, hsum] at hbody
        cases hlength : packetLength cb parser ((q ++ data).take cb) with
        | none =>
          rw [hlength] at hbody
          exact hbody
        | some total =>
          rw [hlength] at hbody
          exact hbody
      · -- the header was complete before, and its packet fits the parse buffer
        rw [if_neg (show ¬(q.length : Int) < cb by omega)]
        obtain ⟨total, htotal, hfit, hqlt⟩ := hwf.resolve_left hhead
        have htake : (q ++ data).take cb = q.take cb := by
          rw [List.take_append_of_le_length (by omega)]
        have hbody := @tcpParseBody_refines cb parser fully s q data 0 ((q ++ data).take cb)
          hlb hbuf hoff hq (by omega) hlen (by rw [htake]; exact hparser q (by omega))
          (fun total' htotal' _ => by
            rw [htake, htotal] at htotal'
            cases htotal'
            exact hqlt)
        rw [Int.natCast_zero, List.drop_zero, Nat.sub_zero] at hbody
        exact hbody

end Template

end Tcp

end LibNax
