import LibNax.Tcp.Pending

/-!
# Framing

The packets that a link hands to its user, for every way the stream can be cut into chunks.

The code loses bytes in one situation.  A packet that does not fit the parse buffer is collected in
a large block, and when the block is set up the code copies the current data into it, but not the
bytes of the header that earlier chunks had left in the parse buffer.  So the packets come out as
they went in exactly when no chunk ends inside the header of a packet of that size
(`tcpRxChunks_posts_iff`).

The parser of the code works on buffers with offsets, and `LibNax.Tcp.Pending` has shown that it is
a function `parse` on what is pending: bytes of a header, a packet that has begun, or a large
block.  Here only that function occurs.  A chunk is fed to it until nothing is left, and the chunks
follow each other.

In one direction the invariant is `At`: what is pending is the beginning `q` of the frames that are
still to come, in the form that the parser keeps it in.  Data either completes the first of these
frames or does not (`parse_complete`, `parse_partial`), and one chunk is an induction on the frames
that it completes (`feed_clean`).  The condition on the cuts is used where a large frame begins:
all of its header has come with the same chunk.

In the other direction nothing can be said about where the parser is after a bad cut, since it
takes user data for headers, and these may say anything.  So the argument counts.  Each piece of
data gives back at most as many bytes as it was given, delivered or pending, and at the cut it is
fewer; so the user gets fewer bytes than were sent, and it can not be all of the packets, whatever
comes later.

* `feed` and `feedChunks` — the two loops over `parse`, and `tcpRxChunks_refines` that the code runs
  them.
* `feedChunks_clean` — without such a cut, the packets are the frames, in order.
* `feedChunks_short` — with such a cut, fewer bytes come out than went in.  This is a count: every
  piece of data gives back at most what it was given (`weight_feedChunks_le`), and at the cut some
  of it goes missing.
-/

set_option autoImplicit false

namespace LibNax

namespace Tcp

/-- A packet as `tcp_write` builds it. -/
structure Frame where
  /-- The header that the builder of the template made. -/
  header : List UInt8
  /-- The user data. -/
  payload : List UInt8

/-- The bytes of a packet on the wire. -/
def Frame.bytes (f : Frame) : List UInt8 := f.header ++ f.payload

/-- The bytes of a sequence of packets. -/
def stream (frames : List Frame) : List UInt8 := (frames.map Frame.bytes).flatten

@[simp] theorem stream_nil : stream [] = [] := rfl

@[simp] theorem stream_cons (f : Frame) (frames : List Frame) :
    stream (f :: frames) = f.bytes ++ stream frames := rfl

@[simp] theorem stream_append (frames frames' : List Frame) :
    stream (frames ++ frames') = stream frames ++ stream frames' := by
  simp [stream]

/-- The chunks cut the stream of the frames inside the header of one that needs a large block. -/
def CutsLargeHeader (cb : Nat) (frames : List Frame) (position : Nat) : Prop :=
  ∃ before f after, frames = before ++ f :: after ∧ tcpBufferSize < f.bytes.length ∧
    (stream before).length < position ∧ position < (stream before).length + cb

section Template

variable (cb : Nat) (parser : List UInt8 → Int × Int) (fully : Bool)

/-- The packets of a legal frame: the header has its size, and the parser reads the length of the
user data off it, within the bounds that the link accepts. -/
structure Frame.Legal (f : Frame) : Prop where
  header_length : f.header.length = cb
  status : 0 ≤ (parser f.header).1
  size : (parser f.header).2 = f.payload.length
  size_pos : 0 < f.payload.length
  size_le : f.payload.length ≤ tcpMaximumPacketSize

/-- The loop over one chunk. -/
def feed : Nat → Pending → List UInt8 → Pending × List (List UInt8) × Bool
  | 0, pend, _ => (pend, [], false)
  | fuel + 1, pend, data =>
    match parse cb parser fully pend data with
    | (pend', posts, none) => (pend', posts, false)
    | (pend', posts, some n) =>
      if n = 0 then (pend', posts, true)
      else
        let r := feed fuel pend' (data.drop (data.length - n))
        (r.1, posts ++ r.2.1, r.2.2)

/-- The loop over the chunks. -/
def feedChunks : Pending → List (List UInt8) → Pending × List (List UInt8) × Bool
  | pend, [] => (pend, [], true)
  | pend, chunk :: chunks =>
    let r := feed cb parser fully chunk.length pend chunk
    if r.2.2 then
      let r' := feedChunks r.1 chunks
      (r'.1, r.2.1 ++ r'.2.1, r'.2.2)
    else r

variable {cb parser fully}

/-! ## Every piece of data -/

variable (cb parser fully) in
/-- The outcomes of `parse`, with what each of them says about the packet. -/
inductive Parsed (data : List UInt8) : Pending → Pending × List (List UInt8) × Option Nat → Prop
  /-- More of a large packet. -/
  | largeMore (total : Nat) (q : List UInt8) : q.length + data.length < total →
      Parsed data (.large total q) (.large total (q ++ data), [], some 0)
  /-- The rest of a large packet. -/
  | largeFull (total : Nat) (q : List UInt8) : total ≤ q.length + data.length →
      Parsed data (.large total q) (.parsing [], [deliver cb fully ((q ++ data).take total)],
        some (q.length + data.length - total))
  /-- Part of a header. -/
  | header (q : List UInt8) : q.length + data.length < cb →
      Parsed data (.parsing q) (.parsing (q ++ data), [], some 0)
  /-- A header that the link does not accept. -/
  | reject (q : List UInt8) : cb ≤ q.length + data.length →
      packetLength cb parser ((q ++ data).take cb) = none →
      Parsed data (.parsing q) (.parsing q, [], none)
  /-- The header of a large packet. -/
  | large (q : List UInt8) (total : Nat) : cb ≤ q.length + data.length →
      packetLength cb parser ((q ++ data).take cb) = some total → tcpBufferSize < total →
      Parsed data (.parsing q) (.large total data, [], some 0)
  /-- The rest of a packet. -/
  | full (q : List UInt8) (total : Nat) : cb ≤ q.length + data.length →
      packetLength cb parser ((q ++ data).take cb) = some total → total ≤ tcpBufferSize →
      total ≤ q.length + data.length →
      Parsed data (.parsing q) (.parsing [], [deliver cb fully ((q ++ data).take total)],
        some (q.length + data.length - total))
  /-- More of a packet. -/
  | more (q : List UInt8) (total : Nat) : cb ≤ q.length + data.length →
      packetLength cb parser ((q ++ data).take cb) = some total → total ≤ tcpBufferSize →
      q.length + data.length < total →
      Parsed data (.parsing q) (.parsing (q ++ data), [], some 0)

variable (cb parser fully) in
theorem parsed (pend : Pending) (data : List UInt8) :
    Parsed cb parser fully data pend (parse cb parser fully pend data) := by
  cases pend with
  | large total q =>
    simp only [parse]
    split
    · exact .largeMore total q ‹_›
    · exact .largeFull total q (by omega)
  | parsing q =>
    simp only [parse]
    split
    · exact .header q ‹_›
    · split
      · exact .reject q (by omega) ‹_›
      · split
        · exact .large q _ (by omega) ‹_› ‹_›
        · split
          · exact .full q _ (by omega) ‹_› (by omega) ‹_›
          · exact .more q _ (by omega) ‹_› (by omega) (by omega)

/-- A packet that is pending is longer than what is pending of it. -/
theorem Pending.Wf.length_lt {q data : List UInt8} {total : Nat}
    (hwf : (Pending.parsing q).Wf cb parser)
    (htotal : packetLength cb parser ((q ++ data).take cb) = some total) : q.length < total := by
  have hgt := packetLength_gt htotal
  rcases hwf with hq | ⟨total', htotal', -, hq⟩
  · omega
  · by_cases hcbq : cb ≤ q.length
    · rw [List.take_append_of_le_length hcbq, htotal'] at htotal
      cases htotal
      exact hq
    · omega

variable (fully) in
/-- A piece of data leaves something that can be pending, and takes at least one byte. -/
theorem parse_wf (hcb : 0 < cb) {pend : Pending} {data : List UInt8} (hwf : pend.Wf cb parser)
    (hdata : data ≠ []) (hlen : data.length ≤ tcpBufferSize) {n : Nat}
    (hn : (parse cb parser fully pend data).2.2 = some n) :
    (parse cb parser fully pend data).1.Wf cb parser ∧ n < data.length := by
  have hpos : 0 < data.length := List.length_pos_iff.mpr hdata
  have hempty : (Pending.parsing []).Wf cb parser := .inl hcb
  have hp := parsed cb parser fully pend data
  generalize parse cb parser fully pend data = out at hp hn
  cases hp with
  | largeMore total q hmore =>
    cases hn
    exact ⟨⟨hwf.1, by rwa [List.length_append]⟩, hpos⟩
  | largeFull total q hfull =>
    cases hn
    have := hwf.2
    exact ⟨hempty, by omega⟩
  | header q hshort =>
    cases hn
    exact ⟨.inl (by rwa [List.length_append]), hpos⟩
  | reject q _ _ => cases hn
  | large q total _ _ hbig =>
    cases hn
    exact ⟨⟨hbig, by omega⟩, hpos⟩
  | full q total _ htotal _ hfull =>
    cases hn
    have := hwf.length_lt htotal
    exact ⟨hempty, by omega⟩
  | more q total _ htotal hfit hmore =>
    cases hn
    exact ⟨.inr ⟨total, htotal, hfit, by rwa [List.length_append]⟩, hpos⟩

/-! ## The loops -/

variable (fully) in
theorem tcpRxLoop_refines (hcb : 0 < cb) (hcb' : cb ≤ tcpBufferSize)
    (hparser : ∀ buffer, cb ≤ buffer.length → parser buffer = parser (buffer.take cb)) :
    ∀ (fuel : Nat) {s : Rx} {pend : Pending} {data : List UInt8}, Rep s pend →
      pend.Wf cb parser → data ≠ [] → data.length ≤ tcpBufferSize → data.length ≤ fuel →
      ∃ s' status, tcpRxLoop (linkOf cb parser fully) fuel s data = some (s', status) ∧
        s'.posts = s.posts ++ (feed cb parser fully fuel pend data).2.1 ∧
        if (feed cb parser fully fuel pend data).2.2 then
          status = 0 ∧ Rep s' (feed cb parser fully fuel pend data).1 ∧
            (feed cb parser fully fuel pend data).1.Wf cb parser
        else status < 0
  | 0, s, pend, data, _, _, hdata, _, hfuel => by
    have := List.length_pos_iff.mpr hdata
    omega
  | fuel + 1, s, pend, data, hrep, hwf, hdata, hlen, hfuel => by
    obtain ⟨s₁, r, hpkt, hposts, hout⟩ :=
      tcpParsePkt_refines fully hcb hcb' hparser hrep hwf hdata hlen
    have hnext := fun n => parse_wf fully (n := n) hcb hwf hdata hlen
    rw [tcpRxLoop, feed, hpkt]
    generalize parse cb parser fully pend data = out at hposts hout hnext
    obtain ⟨pend₁, posts₁, left⟩ := out
    cases left with
    | none =>
      simp only at hout
      simp only [Option.bind_eq_bind, Option.bind_some, if_pos hout]
      exact ⟨s₁, nspStatusFatal, rfl, hposts, by simp [nspStatusFatal]⟩
    | some n =>
      obtain ⟨rfl, hrep₁⟩ := hout
      obtain ⟨hwf₁, hlt⟩ := hnext n rfl
      have hnn : ¬(n : Int) < 0 := by omega
      simp only [Option.bind_eq_bind, Option.bind_some, if_neg hnn]
      by_cases hn : n = 0
      · subst hn
        simp only [Int.natCast_zero, gt_iff_lt, Int.lt_irrefl, if_false, if_true]
        exact ⟨s₁, 0, rfl, hposts, rfl, hrep₁, hwf₁⟩
      · rw [if_pos (show (n : Int) > 0 by omega), if_neg hn, Int.toNat_natCast]
        have hdrop : (data.drop (data.length - n)).length = n := by
          rw [List.length_drop]
          omega
        have hdrop_ne : data.drop (data.length - n) ≠ [] := fun h => hn (by rw [← hdrop, h]; rfl)
        obtain ⟨s₂, status, hloop, hposts₂, hout₂⟩ := tcpRxLoop_refines hcb hcb' hparser fuel
          hrep₁ hwf₁ hdrop_ne (by omega) (by omega)
        refine ⟨s₂, status, hloop, ?_, hout₂⟩
        rw [hposts₂, hposts, List.append_assoc]

variable (fully) in
theorem tcpRxChunks_refines (hcb : 0 < cb) (hcb' : cb ≤ tcpBufferSize)
    (hparser : ∀ buffer, cb ≤ buffer.length → parser buffer = parser (buffer.take cb)) :
    ∀ {chunks : List (List UInt8)} {s : Rx} {pend : Pending},
      (∀ c ∈ chunks, c ≠ [] ∧ c.length ≤ tcpBufferSize) → Rep s pend → pend.Wf cb parser →
      ∃ s' status, tcpRxChunks (linkOf cb parser fully) s chunks = some (s', status) ∧
        s'.posts = s.posts ++ (feedChunks cb parser fully pend chunks).2.1 ∧
        (status = 0 ↔ (feedChunks cb parser fully pend chunks).2.2 = true)
  | [], s, pend, _, _, _ => ⟨s, 0, rfl, by simp [feedChunks], by simp [feedChunks]⟩
  | chunk :: chunks, s, pend, hchunks, hrep, hwf => by
    obtain ⟨hne, hlen⟩ := hchunks chunk List.mem_cons_self
    obtain ⟨s₁, status₁, hloop, hposts₁, hout⟩ := tcpRxLoop_refines fully hcb hcb'
      hparser chunk.length hrep hwf hne hlen (Nat.le_refl _)
    rw [tcpRxChunks, tcpRx, hloop, feedChunks]
    simp only [Option.bind_eq_bind, Option.bind_some]
    split at hout
    · rename_i hok
      obtain ⟨rfl, hrep₁, hwf₁⟩ := hout
      obtain ⟨s₂, status₂, hrest, hposts₂, hstatus₂⟩ := tcpRxChunks_refines hcb hcb' hparser
        (fun c hc => hchunks c (List.mem_cons_of_mem _ hc)) hrep₁ hwf₁
      rw [if_neg (by omega), if_pos hok]
      refine ⟨s₂, status₂, hrest, ?_, hstatus₂⟩
      rw [hposts₂, hposts₁, List.append_assoc]
    · rename_i hok
      rw [if_pos hout, if_neg hok]
      refine ⟨s₁, status₁, rfl, hposts₁, ?_⟩
      constructor
      · intro h
        omega
      · exact fun h => absurd h hok

/-! ## Counting bytes -/

variable (cb fully) in
/-- The number of bytes on the wire behind what the user got. -/
def weight (posts : List (List UInt8)) : Nat :=
  (posts.map fun post => post.length + if fully then 0 else cb).sum

@[simp] theorem weight_nil : weight cb fully [] = 0 := rfl

@[simp] theorem weight_append (posts posts' : List (List UInt8)) :
    weight cb fully (posts ++ posts') = weight cb fully posts + weight cb fully posts' := by
  simp [weight]

theorem weight_deliver {packet : List UInt8} (h : cb ≤ packet.length) :
    weight cb fully [deliver cb fully packet] = packet.length := by
  unfold weight deliver
  split
  · simp
  · simp only [List.map_cons, List.length_drop, List.map_nil, List.sum_cons, List.sum_nil]
    omega

variable (fully) in
/-- A piece of data gives back at most what it was given. -/
theorem weight_parse_le (hcb' : cb ≤ tcpBufferSize) {pend : Pending} {data : List UInt8}
    (hwf : pend.Wf cb parser) {n : Nat} (hn : (parse cb parser fully pend data).2.2 = some n) :
    weight cb fully (parse cb parser fully pend data).2.1 +
      (parse cb parser fully pend data).1.bytes.length + n ≤ pend.bytes.length + data.length := by
  have hp := parsed cb parser fully pend data
  generalize parse cb parser fully pend data = out at hp hn
  cases hp with
  | largeMore total q _ =>
    cases hn
    simp [Pending.bytes]
  | largeFull total q hfull =>
    cases hn
    have hcb : cb ≤ ((q ++ data).take total).length := by
      have := hwf.1
      rw [List.length_take, List.length_append]
      omega
    rw [weight_deliver hcb]
    simp only [Pending.bytes, List.length_take, List.length_append, List.length_nil]
    omega
  | header q _ =>
    cases hn
    simp [Pending.bytes]
  | reject q _ _ => cases hn
  | large q total _ _ _ =>
    cases hn
    simp [Pending.bytes]
  | full q total _ htotal _ hfull =>
    cases hn
    have hgt := packetLength_gt htotal
    have hcb : cb ≤ ((q ++ data).take total).length := by
      rw [List.length_take, List.length_append]
      omega
    rw [weight_deliver hcb]
    simp only [Pending.bytes, List.length_take, List.length_append, List.length_nil]
    omega
  | more q total _ _ _ _ =>
    cases hn
    simp [Pending.bytes]

theorem weight_feed_le (hcb : 0 < cb) (hcb' : cb ≤ tcpBufferSize) :
    ∀ (fuel : Nat) {pend : Pending} {data : List UInt8}, pend.Wf cb parser → data ≠ [] →
      data.length ≤ tcpBufferSize → (feed cb parser fully fuel pend data).2.2 = true →
      weight cb fully (feed cb parser fully fuel pend data).2.1 +
        (feed cb parser fully fuel pend data).1.bytes.length ≤ pend.bytes.length + data.length ∧
      (feed cb parser fully fuel pend data).1.Wf cb parser
  | 0, pend, data, _, _, _, hok => by simp [feed] at hok
  | fuel + 1, pend, data, hwf, hdata, hlen, hok => by
    have hle := fun n => @weight_parse_le cb parser fully hcb' pend data hwf n
    have hnext := fun n => parse_wf fully (n := n) hcb hwf hdata hlen
    rw [feed] at hok ⊢
    generalize parse cb parser fully pend data = out at hle hnext hok
    obtain ⟨pend₁, posts₁, left⟩ := out
    cases left with
    | none => simp at hok
    | some n =>
      obtain ⟨hwf₁, hlt⟩ := hnext n rfl
      replace hle := hle n rfl
      simp only at hle hok ⊢
      split at hok
      · rename_i hn
        rw [if_pos hn]
        exact ⟨by simp only; omega, hwf₁⟩
      · rename_i hn
        rw [if_neg hn]
        have hdrop : (data.drop (data.length - n)).length = n := by
          rw [List.length_drop]
          omega
        obtain ⟨hrest, hwf₂⟩ := weight_feed_le hcb hcb' fuel hwf₁
          (fun h => hn (by rw [← hdrop, h]; rfl)) (by omega) hok
        rw [hdrop] at hrest
        refine ⟨?_, hwf₂⟩
        rw [weight_append]
        simp only at hrest ⊢
        omega

theorem weight_feedChunks_le (hcb : 0 < cb) (hcb' : cb ≤ tcpBufferSize) :
    ∀ {chunks : List (List UInt8)} {pend : Pending},
      (∀ c ∈ chunks, c ≠ [] ∧ c.length ≤ tcpBufferSize) → pend.Wf cb parser →
      (feedChunks cb parser fully pend chunks).2.2 = true →
      weight cb fully (feedChunks cb parser fully pend chunks).2.1 ≤
        pend.bytes.length + chunks.flatten.length
  | [], pend, _, _, _ => by simp [feedChunks]
  | chunk :: chunks, pend, hchunks, hwf, hok => by
    obtain ⟨hne, hlen⟩ := hchunks chunk List.mem_cons_self
    rw [feedChunks] at hok ⊢
    by_cases hfeed : (feed cb parser fully chunk.length pend chunk).2.2 = true
    · obtain ⟨hle, hwf₁⟩ := weight_feed_le hcb hcb' chunk.length hwf hne hlen hfeed
      rw [if_pos hfeed] at hok ⊢
      have hrest := weight_feedChunks_le hcb hcb'
        (fun c hc => hchunks c (List.mem_cons_of_mem _ hc)) hwf₁ hok
      rw [weight_append, List.flatten_cons, List.length_append]
      omega
    · rw [if_neg hfeed] at hok
      exact absurd hok hfeed

/-! ## Chunks that do not cut a large header -/

theorem Frame.Legal.packetLength {f : Frame} (hf : f.Legal cb parser) :
    packetLength cb parser f.header = some f.bytes.length := by
  have hstatus := hf.status
  have hsize := hf.size
  have hpos := hf.size_pos
  have hle := hf.size_le
  have hlen := hf.header_length
  rw [Tcp.packetLength, if_neg (by omega), if_neg (by omega), hsize, Int.toNat_natCast,
    Frame.bytes, List.length_append]
  congr 1
  omega

theorem Frame.Legal.take {f : Frame} (hf : f.Legal cb parser) : f.bytes.take cb = f.header := by
  rw [Frame.bytes]
  exact List.take_left' hf.header_length

theorem Frame.Legal.length_gt {f : Frame} (hf : f.Legal cb parser) : cb < f.bytes.length :=
  packetLength_gt hf.packetLength

variable (cb) in
/-- What is pending when `q` has arrived of the frame `f`. -/
def pendingOf (f : Frame) (q : List UInt8) : Pending :=
  if tcpBufferSize < f.bytes.length ∧ cb ≤ q.length then .large f.bytes.length q else .parsing q

variable (cb) in
/-- What is pending when `q` has arrived of the frames that are still to come. -/
def At : List Frame → List UInt8 → Pending → Prop
  | [], q, pend => q = [] ∧ pend = .parsing []
  | f :: _, q, pend => q <+: f.bytes ∧ q.length < f.bytes.length ∧ pend = pendingOf cb f q

theorem at_nil (hcb : 0 < cb) {frames : List Frame} (hlegal : ∀ f ∈ frames, f.Legal cb parser) :
    At cb frames [] (.parsing []) := by
  cases frames with
  | nil => exact ⟨rfl, rfl⟩
  | cons f frames =>
    have := (hlegal f List.mem_cons_self).length_gt
    refine ⟨List.nil_prefix, by simp; omega, ?_⟩
    rw [pendingOf, if_neg (by simp; omega)]

/-- The header of the frame, once it has arrived. -/
theorem Frame.Legal.take_stream {f : Frame} (hf : f.Legal cb parser) {l rest more : List UInt8}
    (h : l ++ rest = f.bytes ++ more) (hle : cb ≤ l.length) : l.take cb = f.header := by
  have htake := congrArg (List.take cb) h
  rwa [List.take_append_of_le_length hle,
    List.take_append_of_le_length (Nat.le_of_lt hf.length_gt), hf.take] at htake

/-- Data that does not complete the frame. -/
theorem parse_partial {f : Frame} (hf : f.Legal cb parser) {q data rest more : List UInt8}
    (hclean : ¬(tcpBufferSize < f.bytes.length ∧ 0 < q.length ∧ q.length < cb))
    (hstream : q ++ data ++ rest = f.bytes ++ more)
    (hlt : q.length + data.length < f.bytes.length) :
    parse cb parser fully (pendingOf cb f q) data = (pendingOf cb f (q ++ data), [], some 0) := by
  unfold pendingOf
  rw [List.length_append]
  by_cases hlarge : tcpBufferSize < f.bytes.length ∧ cb ≤ q.length
  · rw [if_pos hlarge, if_pos ⟨hlarge.1, by omega⟩, parse, if_pos hlt]
  · rw [if_neg hlarge]
    by_cases hshort : q.length + data.length < cb
    · rw [if_neg (by omega), parse, if_pos hshort]
    · have hhead := hf.take_stream hstream (by rw [List.length_append]; omega)
      simp only [parse, if_neg hshort, hhead, hf.packetLength]
      by_cases hbig : tcpBufferSize < f.bytes.length
      · -- the header starts with this data, so nothing of it was pending
        have hq : q = [] := List.length_eq_zero_iff.mp (by omega)
        subst hq
        rw [if_pos hbig, if_pos ⟨hbig, by omega⟩, List.nil_append]
      · rw [if_neg hbig, if_neg (by omega), if_neg fun h => hbig h.1]

/-- Data that completes the frame. -/
theorem parse_complete {f : Frame} (hf : f.Legal cb parser) {q data rest more : List UInt8}
    (hclean : ¬(tcpBufferSize < f.bytes.length ∧ 0 < q.length ∧ q.length < cb))
    (hlen : data.length ≤ tcpBufferSize) (hstream : q ++ data ++ rest = f.bytes ++ more)
    (hge : f.bytes.length ≤ q.length + data.length) :
    parse cb parser fully (pendingOf cb f q) data =
      (.parsing [], [deliver cb fully f.bytes],
        some (q.length + data.length - f.bytes.length)) := by
  have hgt := hf.length_gt
  have hframe : (q ++ data).take f.bytes.length = f.bytes := by
    have htake := congrArg (List.take f.bytes.length) hstream
    rwa [List.take_append_of_le_length (by rw [List.length_append]; exact hge),
      List.take_left' rfl] at htake
  unfold pendingOf
  by_cases hlarge : tcpBufferSize < f.bytes.length ∧ cb ≤ q.length
  · rw [if_pos hlarge, parse, if_neg (by omega), hframe]
  · have hhead := hf.take_stream hstream (by rw [List.length_append]; omega)
    rw [if_neg hlarge]
    simp only [parse, hhead, hf.packetLength, hframe]
    rw [if_neg (by omega), if_neg (by omega), if_pos hge]

variable (fully) in
/-- **One chunk.**  If it does not start inside a large header, it completes some of the frames, and
leaves the beginning of the next. -/
theorem feed_clean (hcb : 0 < cb) :
    ∀ (fuel : Nat) {frames : List Frame} {q data rest : List UInt8} {pend : Pending},
      (∀ f ∈ frames, f.Legal cb parser) → At cb frames q pend →
      ¬CutsLargeHeader cb frames q.length → data ≠ [] → data.length ≤ tcpBufferSize →
      data.length ≤ fuel → q ++ data ++ rest = stream frames →
      ∃ done frames' q' pend', frames = done ++ frames' ∧ At cb frames' q' pend' ∧
        q' ++ rest = stream frames' ∧
        feed cb parser fully fuel pend data =
          (pend', done.map fun f => deliver cb fully f.bytes, true)
  | 0, frames, q, data, rest, pend, _, _, _, hdata, _, hfuel, _ => by
    have := List.length_pos_iff.mpr hdata
    omega
  | fuel + 1, [], q, data, rest, pend, _, _, _, hdata, _, _, hstream => by
    simp only [stream_nil, List.append_eq_nil_iff] at hstream
    exact absurd hstream.1.2 hdata
  | fuel + 1, f :: frames, q, data, rest, pend, hlegal, hat, hclean, hdata, hlen, hfuel,
      hstream => by
    obtain ⟨-, hqlt, rfl⟩ := hat
    have hf := hlegal f List.mem_cons_self
    have hlegal' : ∀ g ∈ frames, g.Legal cb parser := fun g hg =>
      hlegal g (List.mem_cons_of_mem _ hg)
    have hclean' : ¬(tcpBufferSize < f.bytes.length ∧ 0 < q.length ∧ q.length < cb) :=
      fun h => hclean ⟨[], f, frames, rfl, h.1, by simpa using h.2.1, by simpa using h.2.2⟩
    rw [stream_cons] at hstream
    have hdpos := List.length_pos_iff.mpr hdata
    by_cases hlt : q.length + data.length < f.bytes.length
    · rw [feed, parse_partial hf hclean' hstream hlt]
      refine ⟨[], f :: frames, q ++ data, pendingOf cb f (q ++ data), rfl, ⟨?_, ?_, rfl⟩, ?_, ?_⟩
      · exact List.prefix_of_prefix_length_le (hstream ▸ List.prefix_append _ _)
          (List.prefix_append _ _) (by rw [List.length_append]; omega)
      · rwa [List.length_append]
      · rw [stream_cons, hstream]
      · simp
    · rw [feed, parse_complete hf hclean' hlen hstream (by omega)]
      -- what is left over belongs to the frames that follow
      have hsplit : data.drop (data.length - (q.length + data.length - f.bytes.length)) ++ rest =
          stream frames := by
        have hdrop := congrArg (List.drop f.bytes.length) hstream
        rw [List.drop_left' rfl, List.append_assoc, List.drop_append,
          List.drop_of_length_le (by omega), List.nil_append,
          List.drop_append_of_le_length (by omega)] at hdrop
        have hidx : data.length - (q.length + data.length - f.bytes.length) =
            f.bytes.length - q.length := by omega
        rw [hidx, hdrop]
      by_cases hzero : q.length + data.length - f.bytes.length = 0
      · simp only [hzero, if_true]
        rw [hzero, Nat.sub_zero, List.drop_length, List.nil_append] at hsplit
        refine ⟨[f], frames, [], .parsing [], rfl, at_nil hcb hlegal', ?_, rfl⟩
        rw [List.nil_append, hsplit]
      · simp only [hzero, if_false]
        have hleft : data.drop (data.length - (q.length + data.length - f.bytes.length)) ≠ [] := by
          intro h
          have := congrArg List.length h
          simp only [List.length_drop, List.length_nil] at this
          omega
        have hnext : ¬CutsLargeHeader cb frames ([] : List UInt8).length := by
          rintro ⟨before, g, after, -, -, hpos, -⟩
          simp at hpos
        obtain ⟨done, frames', q', pend', rfl, hat', hrest', hfeed⟩ := feed_clean hcb fuel hlegal'
          (at_nil hcb hlegal') hnext hleft (by rw [List.length_drop]; omega)
          (by rw [List.length_drop]; omega) (by rw [List.nil_append]; exact hsplit)
        refine ⟨f :: done, frames', q', pend', rfl, hat', hrest', ?_⟩
        rw [hfeed]
        rfl

theorem weight_frames {frames : List Frame} (hlegal : ∀ f ∈ frames, f.Legal cb parser) :
    weight cb fully (frames.map fun f => deliver cb fully f.bytes) = (stream frames).length := by
  induction frames with
  | nil => rfl
  | cons f frames ih =>
    have hf := hlegal f List.mem_cons_self
    have hcons : (f :: frames).map (fun f => deliver cb fully f.bytes) =
        [deliver cb fully f.bytes] ++ frames.map fun f => deliver cb fully f.bytes := rfl
    rw [hcons, weight_append, weight_deliver (Nat.le_of_lt hf.length_gt), stream_cons,
      List.length_append, ih fun g hg => hlegal g (List.mem_cons_of_mem _ hg)]

/-- Cuts are counted from the first frame that is not complete. -/
theorem cutsLargeHeader_append {done frames : List Frame}
    (hlegal : ∀ f ∈ done, f.Legal cb parser) {n : Nat} :
    CutsLargeHeader cb (done ++ frames) ((stream done).length + n) ↔
      CutsLargeHeader cb frames n := by
  constructor
  · rintro ⟨before, f, after, heq, hbig, hlt, hgt⟩
    rcases List.append_eq_append_iff.mp heq with ⟨mid, rfl, hframes⟩ | ⟨mid, rfl, hframes⟩
    · refine ⟨mid, f, after, hframes, hbig, ?_, ?_⟩
      all_goals simp only [stream_append, List.length_append] at hlt hgt
      all_goals omega
    · cases mid with
      | nil =>
        refine ⟨[], f, after, by simpa using hframes.symm, hbig, ?_, ?_⟩
        all_goals simp only [List.append_nil] at hlt hgt
        all_goals simp only [stream_nil, List.length_nil]
        all_goals omega
      | cons g mid =>
        -- the frame is complete, so the position is past its header
        cases hframes
        have := (hlegal f (by simp)).length_gt
        simp only [stream_append, stream_cons, List.length_append] at hlt hgt
        omega
  · rintro ⟨before, f, after, rfl, hbig, hlt, hgt⟩
    refine ⟨done ++ before, f, after, by simp, hbig, ?_, ?_⟩
    all_goals simp only [stream_append, List.length_append]
    all_goals omega

variable (fully) in
/-- **Without a cut in a large header, the packets are the frames.** -/
theorem feedChunks_clean (hcb : 0 < cb) :
    ∀ {chunks : List (List UInt8)} {frames : List Frame} {q : List UInt8} {pend : Pending},
      (∀ c ∈ chunks, c ≠ [] ∧ c.length ≤ tcpBufferSize) → (∀ f ∈ frames, f.Legal cb parser) →
      At cb frames q pend → q ++ chunks.flatten = stream frames →
      (∀ pre post, chunks = pre ++ post →
        ¬CutsLargeHeader cb frames (q.length + pre.flatten.length)) →
      (feedChunks cb parser fully pend chunks).2 =
        (frames.map fun f => deliver cb fully f.bytes, true)
  | [], frames, q, pend, _, _, hat, hstream, _ => by
    cases frames with
    | nil => rfl
    | cons f frames =>
      have hlen := congrArg List.length hstream
      obtain ⟨-, hlt, -⟩ := hat
      simp only [List.flatten_nil, List.append_nil, stream_cons, List.length_append] at hlen
      omega
  | chunk :: chunks, frames, q, pend, hchunks, hlegal, hat, hstream, hclean => by
    obtain ⟨hne, hlen⟩ := hchunks chunk List.mem_cons_self
    rw [List.flatten_cons, ← List.append_assoc] at hstream
    obtain ⟨done, frames', q', pend', rfl, hat', hstream', hfeed⟩ := feed_clean fully
      hcb chunk.length hlegal hat (by simpa using hclean [] _ rfl) hne hlen (Nat.le_refl _) hstream
    have hpos : q.length + chunk.length = (stream done).length + q'.length := by
      have h₁ := congrArg List.length hstream
      have h₂ := congrArg List.length hstream'
      simp only [List.length_append, stream_append] at h₁ h₂
      omega
    have hrest := feedChunks_clean hcb
      (fun c hc => hchunks c (List.mem_cons_of_mem _ hc))
      (fun f hf => hlegal f (List.mem_append_right _ hf)) hat' hstream' (by
        rintro pre post rfl hcut
        refine hclean (chunk :: pre) post rfl ?_
        rw [← cutsLargeHeader_append fun f hf => hlegal f (List.mem_append_left _ hf)] at hcut
        rw [List.flatten_cons, List.length_append]
        convert hcut using 1
        omega)
    rw [feedChunks, hfeed]
    simp only [if_true, hrest, List.map_append]

/-! ## A cut in a large header -/

/-- Part of the header of a large packet is pending: its bytes will not come out. -/
theorem feedChunks_doomed (hcb' : cb ≤ tcpBufferSize) {f : Frame} (hf : f.Legal cb parser)
    (hbig : tcpBufferSize < f.bytes.length) :
    ∀ {chunks : List (List UInt8)} {q more : List UInt8},
      (∀ c ∈ chunks, c ≠ [] ∧ c.length ≤ tcpBufferSize) → 0 < q.length → q.length < cb →
      q ++ chunks.flatten = f.bytes ++ more →
      (feedChunks cb parser fully (.parsing q) chunks).2.2 = true →
      weight cb fully (feedChunks cb parser fully (.parsing q) chunks).2.1 <
        q.length + chunks.flatten.length
  | [], q, more, _, _, hlt, hstream, _ => by
    have hlen := congrArg List.length hstream
    have hgt := hf.length_gt
    simp only [List.flatten_nil, List.append_nil, List.length_append] at hlen
    omega
  | chunk :: chunks, q, more, hchunks, hpos, hlt, hstream, hok => by
    obtain ⟨hne, hlen⟩ := hchunks chunk List.mem_cons_self
    have hchunks' : ∀ c ∈ chunks, c ≠ [] ∧ c.length ≤ tcpBufferSize :=
      fun c hc => hchunks c (List.mem_cons_of_mem _ hc)
    have hcpos := List.length_pos_iff.mpr hne
    obtain ⟨fuel, hfuel⟩ : ∃ fuel, chunk.length = fuel + 1 := ⟨chunk.length - 1, by omega⟩
    rw [List.flatten_cons, ← List.append_assoc] at hstream
    rw [List.flatten_cons, List.length_append]
    by_cases hshort : q.length + chunk.length < cb
    · have hfeed : feed cb parser fully chunk.length (.parsing q) chunk =
          (.parsing (q ++ chunk), [], true) := by
        rw [hfuel, feed, parse, if_pos hshort]
        simp
      rw [feedChunks, hfeed] at hok ⊢
      simp only [if_true, List.nil_append] at hok ⊢
      have hrest := feedChunks_doomed hcb' hf hbig hchunks' (q := q ++ chunk)
        (by rw [List.length_append]; omega) (by rwa [List.length_append]) hstream hok
      rw [List.length_append] at hrest
      omega
    · -- the header is complete: the large block starts with this chunk
      have hfeed : feed cb parser fully chunk.length (.parsing q) chunk =
          (.large f.bytes.length chunk, [], true) := by
        have hhead := hf.take_stream hstream (by rw [List.length_append]; omega)
        rw [hfuel, feed]
        simp only [parse, if_neg hshort, hhead, hf.packetLength, if_pos hbig, if_true]
      rw [feedChunks, hfeed] at hok ⊢
      simp only [if_true, List.nil_append] at hok ⊢
      have hwf : (Pending.large f.bytes.length chunk).Wf cb parser := ⟨hbig, by omega⟩
      have hrest := weight_feedChunks_le (by omega) hcb' hchunks' hwf hok
      rw [Pending.bytes] at hrest
      omega

variable (fully) in
/-- **With a cut in a large header, bytes go missing.** -/
theorem feedChunks_short (hcb : 0 < cb) (hcb' : cb ≤ tcpBufferSize) :
    ∀ {chunks : List (List UInt8)} {frames : List Frame} {q : List UInt8} {pend : Pending},
      (∀ c ∈ chunks, c ≠ [] ∧ c.length ≤ tcpBufferSize) → (∀ f ∈ frames, f.Legal cb parser) →
      At cb frames q pend → q ++ chunks.flatten = stream frames →
      (∃ pre post, chunks = pre ++ post ∧
        CutsLargeHeader cb frames (q.length + pre.flatten.length)) →
      (feedChunks cb parser fully pend chunks).2.2 = true →
      weight cb fully (feedChunks cb parser fully pend chunks).2.1 < (stream frames).length
  | chunks, frames, q, pend, hchunks, hlegal, hat, hstream, ⟨pre, post, hsplit, hcut⟩, hok => by
    have hlenstream := congrArg List.length hstream
    rw [List.length_append] at hlenstream
    by_cases hnow : CutsLargeHeader cb frames q.length
    · -- the cut is here, in the header of the first frame
      obtain ⟨before, f, after, rfl, hbig, hgt, hlt⟩ := hnow
      cases before with
      | nil =>
        obtain ⟨-, -, rfl⟩ := hat
        simp only [stream_nil, List.length_nil, Nat.zero_add] at hgt hlt
        have hpend : pendingOf cb f q = .parsing q := by
          rw [pendingOf, if_neg (by omega)]
        rw [hpend] at hok ⊢
        rw [← hlenstream]
        exact feedChunks_doomed hcb' (hlegal f List.mem_cons_self) hbig hchunks hgt hlt hstream hok
      | cons g before =>
        obtain ⟨-, hqlt, -⟩ := hat
        simp only [stream_cons, List.length_append] at hgt
        omega
    · cases pre with
      | nil => exact absurd (by simpa using hcut) hnow
      | cons chunk pre =>
        subst hsplit
        obtain ⟨hne, hlen⟩ := hchunks chunk (by simp)
        rw [List.cons_append, List.flatten_cons, ← List.append_assoc] at hstream
        obtain ⟨done, frames', q', pend', rfl, hat', hstream', hfeed⟩ := feed_clean fully
          hcb chunk.length hlegal hat hnow hne hlen (Nat.le_refl _) hstream
        have hpos : q.length + chunk.length = (stream done).length + q'.length := by
          have h₁ := congrArg List.length hstream
          have h₂ := congrArg List.length hstream'
          simp only [List.length_append, stream_append] at h₁ h₂
          omega
        have hcut' : CutsLargeHeader cb frames' (q'.length + pre.flatten.length) := by
          rw [← cutsLargeHeader_append fun f hf => hlegal f (List.mem_append_left _ hf)]
          rw [List.flatten_cons, List.length_append] at hcut
          convert hcut using 1
          omega
        rw [List.cons_append, feedChunks, hfeed] at hok ⊢
        simp only [if_true] at hok ⊢
        have hchunks' : ∀ c ∈ pre ++ post, c ≠ [] ∧ c.length ≤ tcpBufferSize :=
          fun c hc => hchunks c (List.mem_cons_of_mem _ hc)
        have hrest := feedChunks_short hcb hcb' hchunks'
          (fun f hf => hlegal f (List.mem_append_right _ hf)) hat' hstream' ⟨pre, post, rfl, hcut'⟩
          hok
        rw [weight_append, stream_append, List.length_append]
        have hdone : weight cb fully (done.map fun f => deliver cb fully f.bytes) =
            (stream done).length := weight_frames fun f hf => hlegal f (List.mem_append_left _ hf)
        omega
termination_by chunks => chunks.length
decreasing_by simp [*]

/-! ## The code -/

variable (fully) in
/-- What the user should get of a frame. -/
def Frame.expected (f : Frame) : List UInt8 := if fully then f.bytes else f.payload

theorem Frame.Legal.deliver_eq {f : Frame} (hf : f.Legal cb parser) :
    deliver cb fully f.bytes = f.expected fully := by
  unfold deliver Frame.expected
  split
  · rfl
  · rw [Frame.bytes]
    exact List.drop_left' hf.header_length

variable (fully) in
/-- The run of the code over the chunks, from the buffers of a new link. -/
theorem tcpRxChunks_init (hcb : 0 < cb) (hcb' : cb ≤ tcpBufferSize)
    (hparser : ∀ buffer, cb ≤ buffer.length → parser buffer = parser (buffer.take cb))
    {buffer : List UInt8} (hbuffer : buffer.length = tcpBufferSize) {chunks : List (List UInt8)}
    (hchunks : ∀ c ∈ chunks, c ≠ [] ∧ c.length ≤ tcpBufferSize) :
    ∃ s status, tcpRxChunks (linkOf cb parser fully) (Rx.init buffer) chunks = some (s, status) ∧
      s.posts = (feedChunks cb parser fully (.parsing []) chunks).2.1 ∧
      (status = 0 ↔ (feedChunks cb parser fully (.parsing []) chunks).2.2 = true) := by
  have hrep : Rep (Rx.init buffer) (.parsing []) := ⟨rfl, hbuffer, rfl, rfl⟩
  obtain ⟨s, status, hrun, hposts, hstatus⟩ :=
    tcpRxChunks_refines fully hcb hcb' hparser hchunks hrep (.inl hcb)
  exact ⟨s, status, hrun, by rw [hposts]; rfl, hstatus⟩

variable (fully) in
theorem posts_ne_of_cut (hcb : 0 < cb) (hcb' : cb ≤ tcpBufferSize)
    (hparser : ∀ buffer, cb ≤ buffer.length → parser buffer = parser (buffer.take cb))
    {buffer : List UInt8} (hbuffer : buffer.length = tcpBufferSize) {frames : List Frame}
    (hlegal : ∀ f ∈ frames, f.Legal cb parser) {chunks : List (List UInt8)}
    (hchunks : ∀ c ∈ chunks, c ≠ [] ∧ c.length ≤ tcpBufferSize)
    (hstream : chunks.flatten = stream frames)
    (hcut : ∃ pre post, chunks = pre ++ post ∧ CutsLargeHeader cb frames pre.flatten.length) :
    ¬∃ s, tcpRxChunks (linkOf cb parser fully) (Rx.init buffer) chunks = some (s, 0) ∧
      s.posts = frames.map (Frame.expected fully) := by
  rintro ⟨s, hrun, hposts⟩
  obtain ⟨s', status, hrun', hposts', hstatus⟩ :=
    tcpRxChunks_init fully hcb hcb' hparser hbuffer hchunks
  rw [hrun] at hrun'
  cases hrun'
  have hshort := feedChunks_short fully hcb hcb' hchunks hlegal (at_nil hcb hlegal)
    (by rwa [List.nil_append]) (by simpa using hcut) (hstatus.mp rfl)
  have hframes : frames.map (Frame.expected fully) =
      frames.map fun f => deliver cb fully f.bytes :=
    List.map_congr_left fun f hf => (hlegal f hf).deliver_eq.symm
  rw [← hposts', hposts, hframes, weight_frames hlegal] at hshort
  omega

/-- **The packets come out as the frames went in, exactly when no chunk ends inside the header of a
frame that needs a large block.** -/
theorem tcpRxChunks_posts_iff (hcb : 1 ≤ cb) (hcb' : cb ≤ 32)
    (hparser : ∀ buffer, cb ≤ buffer.length → parser buffer = parser (buffer.take cb))
    {buffer : List UInt8} (hbuffer : buffer.length = tcpBufferSize) {frames : List Frame}
    (hlegal : ∀ f ∈ frames, f.Legal cb parser) {chunks : List (List UInt8)}
    (hchunks : ∀ c ∈ chunks, c ≠ [] ∧ c.length ≤ tcpBufferSize)
    (hstream : chunks.flatten = stream frames) :
    (∃ s, tcpRxChunks (linkOf cb parser fully) (Rx.init buffer) chunks = some (s, 0) ∧
      s.posts = frames.map (Frame.expected fully)) ↔
      ∀ pre post, chunks = pre ++ post → ¬CutsLargeHeader cb frames pre.flatten.length := by
  have hsize : cb ≤ tcpBufferSize := by
    unfold tcpBufferSize
    omega
  constructor
  · intro hposts pre post hsplit hcut
    exact posts_ne_of_cut fully hcb hsize hparser hbuffer hlegal hchunks hstream
      ⟨pre, post, hsplit, hcut⟩ hposts
  · intro hclean
    obtain ⟨s, status, hrun, hposts, hstatus⟩ :=
      tcpRxChunks_init fully hcb hsize hparser hbuffer hchunks
    have hfeed := feedChunks_clean fully hcb hchunks hlegal (at_nil hcb hlegal)
      (by rwa [List.nil_append]) (by simpa using hclean)
    rw [hfeed] at hposts hstatus
    obtain rfl := hstatus.mpr rfl
    refine ⟨s, hrun, ?_⟩
    rw [hposts]
    exact List.map_congr_left fun f hf => (hlegal f hf).deliver_eq

end Template

/-- Two frames cut inside the header of the first and of the second: both come out. -/
theorem tcpRxChunks_posts_example :
    ∃ s, tcpRxChunks (linkOf 2 (fun h => (0, ((h.getD 1 0).toNat : Int))) false)
        (Rx.init (List.replicate tcpBufferSize 0)) [[9], [3, 1, 2], [3, 9], [1, 7]] =
          some (s, 0) ∧ s.posts = [[1, 2, 3], [7]] := by
  refine (@tcpRxChunks_posts_iff 2 _ false (by omega) (by omega) ?_ _ (by simp)
    [⟨[9, 3], [1, 2, 3]⟩, ⟨[9, 1], [7]⟩] ?_ _ ?_ (by decide)).mpr ?_
  · intro buffer hlen
    simp only [List.getD_eq_getElem?_getD, List.getElem?_take, Nat.reduceLT, if_true]
  · intro f hf
    simp only [List.mem_cons, List.not_mem_nil, or_false] at hf
    rcases hf with rfl | rfl <;> exact ⟨rfl, by decide, by decide, by decide, by decide⟩
  · intro c hc
    simp only [List.mem_cons, List.not_mem_nil, or_false] at hc
    rcases hc with rfl | rfl | rfl | rfl <;> exact ⟨by simp, by decide⟩
  · rintro pre post - ⟨before, f, after, hframes, hbig, -⟩
    have hf : f ∈ [(⟨[9, 3], [1, 2, 3]⟩ : Frame), ⟨[9, 1], [7]⟩] := by
      rw [hframes]
      simp
    simp only [List.mem_cons, List.not_mem_nil, or_false] at hf
    rcases hf with rfl | rfl <;> simp [Frame.bytes, tcpBufferSize] at hbig

/-- A frame of two bytes of header and `tcpBufferSize` bytes of user data, whose header is cut in
the middle.  The input is legal, and the user does not get the frame. -/
theorem tcpRxChunks_posts_cut :
    (∀ f ∈ [(⟨[0, 0], List.replicate tcpBufferSize 1⟩ : Frame)],
        f.Legal 2 fun _ => (0, (tcpBufferSize : Int))) ∧
      (∀ c ∈ [[0], 0 :: List.replicate (tcpBufferSize - 1) 1, [(1 : UInt8)]],
        c ≠ [] ∧ c.length ≤ tcpBufferSize) ∧
      [[0], 0 :: List.replicate (tcpBufferSize - 1) 1, [(1 : UInt8)]].flatten =
        stream [⟨[0, 0], List.replicate tcpBufferSize 1⟩] ∧
      ¬∃ s, tcpRxChunks (linkOf 2 (fun _ => (0, (tcpBufferSize : Int))) true)
        (Rx.init (List.replicate tcpBufferSize 0))
        [[0], 0 :: List.replicate (tcpBufferSize - 1) 1, [1]] = some (s, 0) ∧
          s.posts = [[0, 0] ++ List.replicate tcpBufferSize 1] := by
  have hpos : tcpBufferSize = (tcpBufferSize - 1) + 1 := by decide
  have hlegal : ∀ f ∈ [(⟨[0, 0], List.replicate tcpBufferSize 1⟩ : Frame)],
      f.Legal 2 fun _ => (0, (tcpBufferSize : Int)) := by
    intro f hf
    obtain rfl := List.mem_singleton.mp hf
    exact ⟨rfl, Int.le_refl _, by rw [List.length_replicate],
      by rw [List.length_replicate]; decide, by rw [List.length_replicate]; decide⟩
  have hchunks : ∀ c ∈ [[0], 0 :: List.replicate (tcpBufferSize - 1) 1, [(1 : UInt8)]],
      c ≠ [] ∧ c.length ≤ tcpBufferSize := by
    intro c hc
    simp only [List.mem_cons, List.not_mem_nil, or_false] at hc
    rcases hc with rfl | rfl | rfl
    · exact ⟨by simp, by decide⟩
    · exact ⟨by simp, Nat.le_of_eq (by rw [List.length_cons, List.length_replicate, ← hpos])⟩
    · exact ⟨by simp, by decide⟩
  have hstream : [[0], 0 :: List.replicate (tcpBufferSize - 1) 1, [(1 : UInt8)]].flatten =
      stream [⟨[0, 0], List.replicate tcpBufferSize 1⟩] := by
    have hsnoc : List.replicate tcpBufferSize (1 : UInt8) =
        List.replicate (tcpBufferSize - 1) 1 ++ [1] := by
      rw [← List.replicate_succ', ← hpos]
    simp [stream, Frame.bytes, hsnoc]
  refine ⟨hlegal, hchunks, hstream, ?_⟩
  refine posts_ne_of_cut true (by omega) (by decide) (fun _ _ => rfl) (by simp) hlegal
    hchunks hstream ⟨[[0]], _, rfl, [], _, [], rfl, ?_, by simp, by simp⟩
  rw [Frame.bytes, List.length_append, List.length_replicate]
  exact Nat.lt_add_of_pos_left (by decide)

end Tcp

end LibNax
