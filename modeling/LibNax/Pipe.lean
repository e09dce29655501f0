import LibNax.Lib.Bytes
import LibNax.Lib.Int32
import LibNax.Lib.Endian

/-!
# Messages through a pipe

`pipe_write_message` writes a header and the data with one call, and `_pipe_rx` reads what is there
into a buffer that it forgets at the end of the round.  Where the pipe is a stream a read may end
inside of a message.

* `Message.bytes`, `pipeWriteMessage` — the writer.
* `rxLoop`, `pipeRx` — the reader, with the place in the stream for every call of
  `ncb_post_pipedata`.
* `rxLoop_stream` — a buffer of whole messages.
* `pipeRx_mem` — whatever is read, a message that is posted lies in one buffer.
* `pipeRx_whole_iff` — all messages arrive if and only if no read ends inside of one.
-/

set_option autoImplicit false

namespace LibNax

namespace Pipe

open Lib (int32 InInt32 leBytes leNat)

/-! ## The functions of the source -/

/-- `PIPE_BUF`. -/
def pipeBuf : Nat := 4096

/-- `sizeof(struct pipe_package_head)`: the length, four bytes between the fields, and the link. -/
def sizeofHead : Nat := 16

/-- The value of a `long`. -/
def int64 (x : Int) : Int := x.bmod (2 ^ 64)

/-- A message: the link, its data, and what was in the memory between the fields of the header. -/
structure Message where
  link : Int
  data : List UInt8
  junk : List UInt8
  deriving Repr, DecidableEq

/-- What is written to the pipe. -/
def Message.bytes (m : Message) : List UInt8 :=
  leBytes 4 m.data.length ++ (m.junk ++ (leBytes 8 (m.link % 2 ^ 64).toNat ++ m.data))

/-- `pipe_write_message`, for a pipe that takes what is written: the bytes, or `-EINVAL`. -/
def pipeWriteMessage (link : Int) (junk : List UInt8) (data : Option (List UInt8)) (cb : Nat) :
    Except Int (List UInt8) :=
  match data with
  | none => .error (-22)
  | some data =>
    if cb ≥ pipeBuf - sizeofHead ∨ cb = 0 then .error (-22)
    else .ok (Message.bytes ⟨link, data.take cb, junk⟩)

/-- A call of `ncb_post_pipedata`: where in the stream the message lies, and the arguments. -/
structure Post where
  pos : Nat
  link : Int
  length : Int
  data : List UInt8
  deriving Repr, DecidableEq

section Rx

variable (live : Int → Bool)

/-- The inner loop of `_pipe_rx` over a buffer that was read at a place of the stream.  A length
that is no length can lead back, in front of the buffer or for ever round: there is no result then,
and as the loop has no state but the offset a number of rounds as large as the buffer shows it. -/
def rxLoop (base : Nat) (pipebuf : List UInt8) : Nat → Int → Int → Option (List Post)
  | 0, _, _ => none
  | n + 1, offset, remain =>
    if remain > sizeofHead then
      if offset < 0 then none
      else
        let pipepkt := pipebuf.drop offset.toNat
        let length := leNat (pipepkt.take 4)
        let link := int64 (leNat ((pipepkt.drop 8).take 8))
        let m := int32 (length + sizeofHead)
        if remain < m then some []
        else
          let post : Post := ⟨base + offset.toNat, link, int32 length,
              (pipepkt.drop sizeofHead).take length⟩
          (rxLoop base pipebuf n (offset + m) (remain - m)).map fun posts =>
            if live link then post :: posts else posts
    else some []

/-- `_pipe_rx`, from a place of the stream on, for what the reads return. -/
def pipeRx : Nat → List (List UInt8) → Option (List Post)
  | _, [] => some []
  | base, pipebuf :: reads =>
    (rxLoop live base pipebuf (pipebuf.length + 1) 0 pipebuf.length).bind fun posts =>
      (pipeRx (base + pipebuf.length) reads).map (posts ++ ·)

end Rx

/-! ## Whole messages -/

/-- What `pipe_write_message` takes. -/
structure Message.Accepted (m : Message) : Prop where
  link : -2 ^ 63 ≤ m.link ∧ m.link < 2 ^ 63
  junk : m.junk.length = 4
  pos : 0 < m.data.length
  lt : m.data.length < pipeBuf - sizeofHead

theorem accepted_of_write {link : Int} {junk data bytes : List UInt8} {cb : Nat}
    (hlink : -2 ^ 63 ≤ link ∧ link < 2 ^ 63) (hjunk : junk.length = 4) (hcb : cb ≤ data.length)
    (h : pipeWriteMessage link junk (some data) cb = .ok bytes) :
    Message.Accepted ⟨link, data.take cb, junk⟩ ∧ bytes = Message.bytes
    ⟨link, data.take cb, junk⟩ := by
  rw [pipeWriteMessage] at h
  split at h
  · cases h
  · rename_i hbounds
    cases h
    refine ⟨⟨hlink, hjunk, ?_, ?_⟩, rfl⟩
    · simp only [List.length_take]
      omega
    · simp only [List.length_take]
      omega

/-- The number of bytes in the pipe. -/
def Message.size (m : Message) : Nat := sizeofHead + m.data.length

/-- The messages in the pipe. -/
def stream (ms : List Message) : List UInt8 := ms.flatMap Message.bytes

/-- The number of bytes of the messages. -/
def sizes (ms : List Message) : Nat := (ms.map Message.size).sum

/-- What is to be posted, from a place of the stream on. -/
def posts : Nat → List Message → List Post
  | _, [] => []
  | pos, m :: ms => ⟨pos, m.link, m.data.length, m.data⟩ :: posts (pos + m.size) ms

section Whole

variable {m : Message} {ms : List Message}

theorem Message.Accepted.length_bytes (h : m.Accepted) : m.bytes.length = m.size := by
  simp only [Message.bytes, List.length_append, Lib.length_leBytes, h.junk,
    Message.size, sizeofHead]
  omega

theorem length_stream (h : ∀ m ∈ ms, m.Accepted) : (stream ms).length = sizes ms := by
  induction ms with
  | nil => rfl
  | cons m ms ih =>
    rw [stream, List.flatMap_cons, List.length_append, (h m List.mem_cons_self).length_bytes, sizes,
      List.map_cons, List.sum_cons]
    exact congrArg _ (ih fun m hm => h m (List.mem_cons_of_mem _ hm))

theorem Message.Accepted.int32_length (h : m.Accepted) : int32 m.data.length = m.data.length := by
  have hlt : m.data.length < 4080 := by simpa [pipeBuf, sizeofHead] using h.lt
  exact Lib.int32_of_inInt32 ⟨by omega, by omega⟩

theorem Message.Accepted.int32_size (h : m.Accepted) :
    int32 ((m.data.length : Int) + sizeofHead) = m.size := by
  have hlt : m.data.length < 4080 := by simpa [pipeBuf, sizeofHead] using h.lt
  rw [Message.size, sizeofHead, Lib.int32_of_inInt32 ⟨by omega, by omega⟩]
  omega

/-- Reading a header back. -/
theorem Message.Accepted.read (h : m.Accepted) (rest : List UInt8) :
    leNat ((m.bytes ++ rest).take 4) = m.data.length ∧
      int64 (leNat (((m.bytes ++ rest).drop 8).take 8)) = m.link ∧
      ((m.bytes ++ rest).drop sizeofHead).take m.data.length = m.data := by
  have hlt := h.lt
  have hlink := h.link
  have h₄ : (leBytes 4 m.data.length).length = 4 := Lib.length_leBytes 4 _
  have h₈ : (leBytes 4 m.data.length ++ m.junk).length = 8 := by
    rw [List.length_append, h₄, h.junk]
  have h₁₆ : (leBytes 4 m.data.length ++ (m.junk ++ leBytes 8 (m.link % 2 ^ 64).toNat)).length =
      sizeofHead := by
    rw [List.length_append, List.length_append, h₄, h.junk, Lib.length_leBytes]
    rfl
  refine ⟨?_, ?_, ?_⟩
  · rw [Message.bytes, List.append_assoc, List.take_left' h₄, Lib.leNat_leBytes,
      Nat.mod_eq_of_lt (by rw [pipeBuf] at hlt; omega)]
  · have hlen : (leBytes 8 (m.link % 2 ^ 64).toNat).length = 8 := Lib.length_leBytes 8 _
    rw [Message.bytes, ← List.append_assoc, List.append_assoc, List.drop_left' h₈,
      List.append_assoc, List.take_left' hlen, Lib.leNat_leBytes, int64, Int.bmod_def]
    split
    · omega
    · omega
  · rw [Message.bytes, ← List.append_assoc m.junk, ← List.append_assoc, List.append_assoc,
      List.drop_left' h₁₆, List.take_left' rfl]

end Whole

/-! ## Reading -/

section Reading

variable {live : Int → Bool} {ms : List Message} {p : Post}

/-- **A buffer of whole messages.** -/
theorem rxLoop_stream (h : ∀ m ∈ ms, m.Accepted ∧ live m.link = true) (base : Nat) :
    ∀ (before : List UInt8) (n : Nat), ms.length < n →
      rxLoop live base (before ++ stream ms) n before.length (stream ms).length =
        some (posts (base + before.length) ms) := by
  induction ms with
  | nil =>
    intro before n hn
    obtain ⟨n, rfl⟩ := Nat.exists_eq_succ_of_ne_zero (Nat.ne_of_gt hn)
    rw [rxLoop, if_neg (by decide)]
    rfl
  | cons m ms ih =>
    intro before n hn
    obtain ⟨n, rfl⟩ := Nat.exists_eq_succ_of_ne_zero (Nat.ne_of_gt (Nat.zero_lt_of_lt hn))
    obtain ⟨hm, hlive⟩ := h m List.mem_cons_self
    have hsize := hm.length_bytes
    have hcons : stream (m :: ms) = m.bytes ++ stream ms := List.flatMap_cons
    have hlen : (stream (m :: ms)).length = m.size + (stream ms).length := by
      rw [hcons, List.length_append, hsize]
    have hgt : sizeofHead < (stream (m :: ms)).length := by
      have := hm.pos
      rw [hlen, Message.size]
      omega
    have hoff : (before.length : Int) + m.size = (before.length + m.size : Nat) := by omega
    have hrem : ((stream (m :: ms)).length : Int) - m.size = (stream ms).length := by omega
    have hle : ¬((stream (m :: ms)).length : Int) < m.size := by omega
    have hnext := ih (fun m hm => h m (List.mem_cons_of_mem _ hm)) (before ++ m.bytes) n
      (Nat.lt_of_succ_lt_succ hn)
    rw [List.append_assoc, ← hcons, List.length_append, hsize] at hnext
    obtain ⟨hlength, hlink, hdata⟩ := hm.read (stream ms)
    rw [← hcons] at hlength hlink hdata
    rw [rxLoop, if_pos (Int.ofNat_lt.mpr hgt), if_neg (Int.not_lt.mpr (Int.natCast_nonneg _))]
    simp only [Int.toNat_natCast, List.drop_left, hlength, hlink, hdata, hm.int32_size]
    rw [if_neg hle, hoff, hrem, hnext, Option.map_some, if_pos hlive, hm.int32_length, posts,
      Nat.add_assoc]

/-- A message that is posted lies in the buffer. -/
theorem rxLoop_mem {base : Nat} {pipebuf : List UInt8} (hlength : 0 ≤ p.length)
    (hlt : p.length + sizeofHead < 2 ^ 31) : ∀ {n : Nat} {offset remain : Int} {ps : List Post},
      rxLoop live base pipebuf n offset remain = some ps → offset + remain = pipebuf.length →
        p ∈ ps → base ≤ p.pos ∧ (p.pos : Int) + sizeofHead + p.length ≤ base + pipebuf.length
  | 0, _, _, _, h, _, _ => by cases h
  | n + 1, offset, remain, ps, h, hsum, hp => by
    rw [rxLoop] at h
    split at h
    · split at h
      · cases h
      simp only at h
      split at h
      · cases h
        cases hp
      obtain ⟨ps', hps', rfl⟩ := Option.map_eq_some_iff.mp h
      have hrest : p ∈ ps' → base ≤ p.pos ∧
          (p.pos : Int) + sizeofHead + p.length ≤ base + pipebuf.length :=
        rxLoop_mem hlength hlt hps' (by omega)
      split at hp
      · rcases List.mem_cons.mp hp with rfl | hp
        · rename_i hoffset hremain _
          simp only at hlength hlt ⊢
          have hword := Lib.leNat_lt ((List.drop offset.toNat pipebuf).take 4)
          have htake : ((List.drop offset.toNat pipebuf).take 4).length ≤ 4 :=
            List.length_take_le _ _
          have hpow : 2 ^ (8 * ((List.drop offset.toNat pipebuf).take 4).length) ≤ 2 ^ (8 * 4) :=
            Nat.pow_le_pow_right Nat.two_pos (by omega)
          have hbound : leNat ((List.drop offset.toNat pipebuf).take 4) < 2 ^ 32 :=
            Nat.lt_of_lt_of_le hword hpow
          generalize leNat ((List.drop offset.toNat pipebuf).take 4) = length at *
          have hsmall := Lib.int32_of_nonneg hbound hlength
          rw [hsmall] at hlt ⊢
          rw [Lib.int32_of_inInt32 ⟨by omega, by omega⟩] at hremain
          omega
        · exact hrest hp
      · exact hrest hp
    · cases h
      cases hp

/-- Where the reads end. -/
def ends (reads : List (List UInt8)) (i : Nat) : Nat := (reads.take i).flatten.length

theorem ends_succ {reads : List (List UInt8)} (pipebuf : List UInt8) (i : Nat) :
    ends (pipebuf :: reads) (i + 1) = pipebuf.length + ends reads i := by
  rw [ends, List.take_succ_cons, List.flatten_cons, List.length_append, ends]

/-- **A message that is posted lies in one buffer.** -/
theorem pipeRx_mem (hlength : 0 ≤ p.length) (hlt : p.length + sizeofHead < 2 ^ 31) :
    ∀ {reads : List (List UInt8)} {base : Nat} {ps : List Post}, pipeRx live base reads = some ps →
      p ∈ ps → ∃ i, base + ends reads i ≤ p.pos ∧
        (p.pos : Int) + sizeofHead + p.length ≤ base + ends reads (i + 1)
  | [], _, _, h, hp => by
    cases h
    cases hp
  | pipebuf :: reads, base, ps, h, hp => by
    rw [pipeRx] at h
    obtain ⟨ps₁, h₁, h⟩ := Option.bind_eq_some_iff.mp h
    obtain ⟨ps₂, h₂, rfl⟩ := Option.map_eq_some_iff.mp h
    rcases List.mem_append.mp hp with hp | hp
    · obtain ⟨hle, hge⟩ := rxLoop_mem hlength hlt h₁ (Int.zero_add _) hp
      refine ⟨0, hle, ?_⟩
      rw [ends_succ]
      exact hge
    · obtain ⟨i, hle, hge⟩ := pipeRx_mem hlength hlt h₂ hp
      refine ⟨i + 1, ?_, ?_⟩
      · rw [ends_succ]
        omega
      · rw [ends_succ]
        omega

end Reading

/-! ## Where the reads end -/

section Ends

variable {live : Int → Bool} {ms : List Message} {reads : List (List UInt8)}

@[simp] theorem sizes_cons (m : Message) (ms : List Message) :
    sizes (m :: ms) = m.size + sizes ms := by
  rw [sizes, List.map_cons, List.sum_cons, sizes]

theorem sizes_append (ms ms' : List Message) : sizes (ms ++ ms') = sizes ms + sizes ms' := by
  rw [sizes, List.map_append, List.sum_append, sizes, sizes]

theorem posts_append (pos : Nat) (ms ms' : List Message) :
    posts pos (ms ++ ms') = posts pos ms ++ posts (pos + sizes ms) ms' := by
  induction ms generalizing pos with
  | nil => rfl
  | cons m ms ih =>
    rw [List.cons_append, posts, ih, posts, List.cons_append, sizes_cons, Nat.add_assoc]

theorem ends_mono (reads : List (List UInt8)) {i j : Nat} (h : i ≤ j) :
    ends reads i ≤ ends reads j := by
  rw [ends, ends]
  obtain ⟨k, rfl⟩ := Nat.exists_eq_add_of_le h
  rw [List.take_add, List.flatten_append, List.length_append]
  omega

/-- No read ends inside of a message. -/
def AtMessages (ms : List Message) (reads : List (List UInt8)) : Prop :=
  ∀ i, ∃ k, ends reads i = sizes (ms.take k)

/-- The messages of the first read, and those of the others. -/
theorem AtMessages.cons {pipebuf : List UInt8} (h : AtMessages ms (pipebuf :: reads))
    (hms : ∀ m ∈ ms, m.Accepted) (hstream : (pipebuf :: reads).flatten = stream ms) :
    ∃ ms₁ ms₂, ms = ms₁ ++ ms₂ ∧ pipebuf = stream ms₁ ∧ reads.flatten = stream ms₂ ∧
      AtMessages ms₂ reads := by
  obtain ⟨k, hk⟩ := h 1
  have hone : ends (pipebuf :: reads) 1 = pipebuf.length := ends_succ pipebuf 0
  have hsplit : stream ms = stream (ms.take k) ++ stream (ms.drop k) := by
    rw [stream, stream, stream, ← List.flatMap_append, List.take_append_drop]
  have hlen : pipebuf.length = (stream (ms.take k)).length := by
    rw [length_stream fun m hm => hms m (List.mem_of_mem_take hm), ← hk, hone]
  rw [List.flatten_cons, hsplit] at hstream
  obtain ⟨h₁, h₂⟩ := List.append_inj hstream hlen
  refine ⟨ms.take k, ms.drop k, (List.take_append_drop k ms).symm, h₁, h₂, fun i => ?_⟩
  obtain ⟨k', hk'⟩ := h (i + 1)
  rw [ends_succ] at hk'
  have hadd : sizes (ms.take k) + ends reads i = sizes (ms.take k') := by rw [← hk, hone, hk']
  refine ⟨k' - k, ?_⟩
  by_cases hle : k ≤ k'
  · obtain ⟨d, rfl⟩ := Nat.exists_eq_add_of_le hle
    rw [List.take_add, sizes_append] at hadd
    rw [Nat.add_sub_cancel_left]
    omega
  · obtain ⟨d, rfl⟩ := Nat.exists_eq_add_of_le (Nat.le_of_not_le hle)
    rw [List.take_add, sizes_append] at hadd
    rw [Nat.sub_eq_zero_of_le (by omega), List.take_zero]
    show _ = 0
    omega

/-- Reads that end at messages post them all. -/
theorem pipeRx_of_atMessages : ∀ {reads : List (List UInt8)} {ms : List Message} (base : Nat),
    (∀ m ∈ ms, m.Accepted ∧ live m.link = true) → reads.flatten = stream ms → AtMessages ms reads →
      pipeRx live base reads = some (posts base ms)
  | [], ms, base, hms, hstream, _ => by
    cases ms with
    | nil => rfl
    | cons m ms =>
      have hlen := congrArg List.length hstream
      rw [List.flatten_nil, length_stream fun m hm => (hms m hm).1, sizes_cons, Message.size,
        sizeofHead] at hlen
      exact absurd hlen (by rw [List.length_nil]; omega)
  | pipebuf :: reads, ms, base, hms, hstream, hat => by
    obtain ⟨ms₁, ms₂, rfl, rfl, h₂, hat₂⟩ := hat.cons (fun m hm => (hms m hm).1) hstream
    have hms₁ : ∀ m ∈ ms₁, m.Accepted ∧ live m.link = true := fun m hm =>
      hms m (List.mem_append_left _ hm)
    have hlen := length_stream fun m hm => (hms₁ m hm).1
    have hcount : ms₁.length ≤ (stream ms₁).length := by
      rw [hlen]
      clear * -
      induction ms₁ with
      | nil => exact Nat.le_refl 0
      | cons m ms ih =>
        rw [sizes_cons, List.length_cons, Message.size, sizeofHead]
        omega
    have hloop := rxLoop_stream hms₁ base [] ((stream ms₁).length + 1) (by omega)
    simp only [List.nil_append, List.length_nil, Nat.add_zero, Int.ofNat_zero] at hloop
    have hrest := pipeRx_of_atMessages (base + (stream ms₁).length)
      (fun m hm => hms m (List.mem_append_right _ hm)) h₂ hat₂
    rw [pipeRx, hloop, Option.bind_some, hrest, Option.map_some, posts_append, hlen]

/-- A place in the stream is between two messages, or inside of one. -/
theorem sizes_take_or {b : Nat} (hb : b ≤ sizes ms) :
    (∃ k, b = sizes (ms.take k)) ∨
      ∃ before m after, ms = before ++ m :: after ∧ sizes before < b ∧
      b < sizes before + m.size := by
  induction ms generalizing b with
  | nil => exact .inl ⟨0, Nat.le_zero.mp hb⟩
  | cons m ms ih =>
    rw [sizes_cons] at hb
    by_cases hzero : b = 0
    · exact .inl ⟨0, hzero⟩
    by_cases hlt : b < m.size
    · exact .inr ⟨[], m, ms, rfl, Nat.pos_of_ne_zero hzero, (Nat.zero_add m.size).symm ▸ hlt⟩
    have hsub : b - m.size ≤ sizes ms := by omega
    rcases ih hsub with ⟨k, hk⟩ | ⟨before, m', after, rfl, h₁, h₂⟩
    · refine .inl ⟨k + 1, ?_⟩
      rw [List.take_succ_cons, sizes_cons, ← hk]
      omega
    · refine .inr ⟨m :: before, m', after, rfl, ?_⟩
      rw [sizes_cons]
      omega

/-- **All messages arrive**, once and in order, each from its own bytes, if and only if no read ends
inside of a message. -/
theorem pipeRx_whole_iff (hms : ∀ m ∈ ms, m.Accepted ∧ live m.link = true)
    (hstream : reads.flatten = stream ms) :
    pipeRx live 0 reads = some (posts 0 ms) ↔ AtMessages ms reads := by
  refine ⟨fun h i => ?_, pipeRx_of_atMessages 0 hms hstream⟩
  have hle : ends reads i ≤ sizes ms := by
    rw [← length_stream fun m hm => (hms m hm).1, ← hstream, ← List.take_append_drop i reads,
      List.flatten_append, List.length_append, List.take_append_drop, ends]
    omega
  refine (sizes_take_or hle).resolve_right ?_
  rintro ⟨before, m, after, rfl, hlt, hgt⟩
  obtain ⟨hm, -⟩ := hms m (List.mem_append_right _ List.mem_cons_self)
  have hmem : ⟨sizes before, m.link, m.data.length, m.data⟩ ∈ posts 0 (before ++ m :: after) := by
    rw [posts_append, Nat.zero_add]
    exact List.mem_append_right _ List.mem_cons_self
  have hsmall : m.data.length < 4080 := by simpa [pipeBuf, sizeofHead] using hm.lt
  obtain ⟨j, hj, hj'⟩ := pipeRx_mem (Int.natCast_nonneg _)
    (by show (m.data.length : Int) + sizeofHead < 2 ^ 31; rw [sizeofHead]; omega) h hmem
  simp only [Nat.zero_add] at hj hj'
  rw [Message.size] at hgt
  -- the read ends in the middle of a buffer
  rcases Nat.lt_or_ge j i with hji | hji
  · have := ends_mono reads (show j + 1 ≤ i from hji)
    omega
  · have := ends_mono reads hji
    omega

/-- Two messages that are read at once. -/
theorem pipeRx_two : pipeRx (fun _ => true) 0
    [stream [⟨7, [1, 2], [0, 0, 0, 0]⟩, ⟨8, [3], [0, 0, 0, 0]⟩]] =
      some (posts 0 [⟨7, [1, 2], [0, 0, 0, 0]⟩, ⟨8, [3], [0, 0, 0, 0]⟩]) := by
  have haccepted : ∀ m ∈ ([⟨7, [1, 2], [0, 0, 0, 0]⟩, ⟨8, [3], [0, 0, 0, 0]⟩] : List Message),
      m.Accepted ∧ (fun _ : Int => true) m.link = true := by
    intro m hm
    simp only [List.mem_cons, List.not_mem_nil, or_false] at hm
    rcases hm with rfl | rfl
    · exact ⟨⟨by decide, rfl, by decide, by decide⟩, rfl⟩
    · exact ⟨⟨by decide, rfl, by decide, by decide⟩, rfl⟩
  refine (pipeRx_whole_iff haccepted (List.append_nil _)).mpr fun i => ?_
  cases i with
  | zero => exact ⟨0, rfl⟩
  | succ i => exact ⟨2, by rw [ends, List.take_succ_cons, List.take_nil]; rfl⟩

/-- The read ends behind the header of the message, and the message is lost. -/
theorem pipeRx_cut : ∃ (reads : List (List UInt8)) (ms : List Message),
    (∀ m ∈ ms, m.Accepted) ∧ (∀ pipebuf ∈ reads, pipebuf ≠ [] ∧ pipebuf.length ≤ pipeBuf) ∧
      reads.flatten = stream ms ∧ pipeRx (fun _ => true) 0 reads = some [] ∧ posts 0 ms ≠ [] := by
  refine ⟨[(stream [⟨7, [1, 2], [0, 0, 0, 0]⟩]).take 16,
    (stream [⟨7, [1, 2], [0, 0, 0, 0]⟩]).drop 16],
    [⟨7, [1, 2], [0, 0, 0, 0]⟩], fun m hm => ?_, ?_, by decide, by decide, by decide⟩
  · cases List.mem_singleton.mp hm
    exact ⟨by decide, rfl, by decide, by decide⟩
  · decide

end Ends

end Pipe

end LibNax
