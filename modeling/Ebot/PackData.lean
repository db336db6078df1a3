import Ebot.RingqFifo

/-!
# Packets

What travels from a reactor to a worker: `pack_data`, its bytes in the ring of
the worker's unit, and the `eb_stream` the worker builds from it.  `readn` is
what fills a packet.
-/

namespace Ebot

open Bytes Words

/-- `STREAM_BUF_SIZE`. -/
def STREAM_BUF_SIZE : Nat := 128

/-- `eb_event`. -/
inductive EbEvent where
  | EB_CONNECT
  | EB_RECV
  | EB_WRITE
  | EB_CLOSE
deriving DecidableEq

/-- `eb_stream`. -/
structure EbStream where
  fd : Int
  buf_size : Nat
  buf : List UInt8
  udata : UInt64
deriving DecidableEq

/-- A zeroed `eb_stream` with `fd` and `udata` filled in. -/
def ebStream (fd : Int) (udata : UInt64) : EbStream :=
  { fd, buf_size := 0, buf := List.replicate STREAM_BUF_SIZE 0, udata }

/-- `pack_data`. -/
structure PackData where
  fd : Int
  len : Int
  buf : List UInt8
  buf_length : buf.length = STREAM_BUF_SIZE
deriving DecidableEq

namespace PackData

/-- `{fd, 0, {0}}`. -/
def blank (fd : Int) : PackData :=
  ⟨fd, 0, List.replicate STREAM_BUF_SIZE 0, by simp⟩

/-- `sizeof(pack_data)`. -/
def size : Nat := 136

/-- The bytes of a packet. -/
def bytes (d : PackData) : List UInt8 :=
  intBytes d.fd ++ intBytes d.len ++ d.buf

/-- The packet a block of memory holds. -/
def ofBlock (b : Block) : PackData :=
  { fd := intOfBytes (b.window 0 4)
    len := intOfBytes (b.window 4 4)
    buf := b.window 8 STREAM_BUF_SIZE
    buf_length := by simp }

@[simp] theorem bytes_length
    (d : PackData) :
    d.bytes.length = size := by
  simp [bytes, d.buf_length, STREAM_BUF_SIZE, size]

/-- Both `int` fields are in range. -/
def InRange (d : PackData) : Prop := InInt d.fd ∧ InInt d.len

/-- A packet read back from its bytes. -/
theorem ofBlock_of_window
    {d : PackData} {b : Block}
    (hrange : d.InRange)
    (hwin : b.window 0 size = d.bytes) :
    ofBlock b = d := by
  have hpart : ∀ a n, a + n ≤ size →
      b.window a n = (d.bytes.drop a).take n := by
    intro a n hn
    rw [← hwin]
    apply List.ext_getElem
    · simp only [Block.window_length, List.length_take, List.length_drop]
      omega
    · intro i hi _
      rw [Block.window_getElem, List.getElem_take, List.getElem_drop,
        Block.window_getElem, Nat.zero_add]
  have hfd : b.window 0 4 = intBytes d.fd := by
    rw [hpart 0 4 (by decide)]
    rfl
  have hlen : b.window 4 4 = intBytes d.len := by
    rw [hpart 4 4 (by decide)]
    rfl
  have hbuf : b.window 8 STREAM_BUF_SIZE = d.buf := by
    rw [hpart 8 STREAM_BUF_SIZE (by decide)]
    have hdrop : d.bytes.drop 8 = d.buf := rfl
    rw [hdrop, ← d.buf_length, List.take_length]
  cases d
  simp only [ofBlock, PackData.mk.injEq]
  exact ⟨by rw [hfd, intOfBytes_intBytes hrange.1],
    by rw [hlen, intOfBytes_intBytes hrange.2], hbuf⟩

/-- The length and the first `len` bytes of the buffer. -/
def content (d : PackData) : Int × List UInt8 :=
  (d.len, d.buf.take d.len.toNat)

end PackData

/-- The answer of `recv` with room for `STREAM_BUF_SIZE` bytes. -/
inductive RecvResult where
  /-- `n > 0` bytes. -/
  | bytes (bs : List UInt8) (pos : 0 < bs.length)
      (fits : bs.length ≤ STREAM_BUF_SIZE)
  /-- `-1` with `EAGAIN` or `EWOULDBLOCK`. -/
  | wouldBlock
  /-- `-1` with any other `errno`. -/
  | error
  /-- `0`: the peer has closed. -/
  | shutdown
deriving DecidableEq

/-- `readn`: its return value. -/
def readn : RecvResult → Int
  | .bytes bs _ _ => bs.length
  | .wouldBlock => 0
  | .error => -1
  | .shutdown => -2

/-- The packet of a client after `readn` on its buffer, with `fd` and `len`
filled in where `n > 0`. -/
def packed (fd : Fd) : RecvResult → PackData
  | .bytes bs _ fits =>
      { fd := (fd : Nat)
        len := bs.length
        buf := bs ++ List.replicate (STREAM_BUF_SIZE - bs.length) 0
        buf_length := by
          rw [List.length_append, List.length_replicate]
          omega }
  | _ => .blank (fd : Nat)

section Packed

variable {fd : Fd} {r : RecvResult}

@[simp] theorem packed_fd : (packed fd r).fd = (fd : Nat) := by
  cases r <;> rfl

/-- The length of a packet is the number of bytes received. -/
theorem packed_len :
    (packed fd r).len = if 0 < readn r then readn r else 0 := by
  cases r with
  | bytes bs pos fits =>
      simp [packed, readn]
  | wouldBlock => rfl
  | error => rfl
  | shutdown => rfl

theorem packed_len_bounds
    (fd : Fd) (r : RecvResult) :
    0 ≤ (packed fd r).len ∧ (packed fd r).len ≤ STREAM_BUF_SIZE := by
  cases r with
  | bytes bs pos fits => exact ⟨Int.natCast_nonneg _, Int.ofNat_le.mpr fits⟩
  | wouldBlock => exact ⟨Int.le_refl 0, Int.natCast_nonneg _⟩
  | error => exact ⟨Int.le_refl 0, Int.natCast_nonneg _⟩
  | shutdown => exact ⟨Int.le_refl 0, Int.natCast_nonneg _⟩

theorem packed_inRange : (packed fd r).InRange := by
  have hlen := packed_len_bounds fd r
  have hfd := fd.isLt
  unfold STREAM_BUF_SIZE at hlen
  constructor
  · rw [packed_fd]
    constructor <;> omega
  · constructor <;> omega

end Packed

/-- The stream the worker builds from a packet.  The `memcpy` takes the length
of the packet as a `size_t`. -/
def streamOf (d : PackData) (udata : UInt64) : Except Stop EbStream := do
  let buf ← memcpy (Block.zeroed STREAM_BUF_SIZE) 0 (Block.ofList d.buf) 0 d.len
  .ok { fd := d.fd, buf_size := sizeT d.len,
        buf := buf.window 0 STREAM_BUF_SIZE, udata }

/-- What a stream delivers: its size and that many bytes of its buffer. -/
def EbStream.content (stream : EbStream) : Int × List UInt8 :=
  (stream.buf_size, stream.buf.take stream.buf_size)

/-- The stream of a packet of a legal length delivers its content. -/
theorem streamOf_content
    {d : PackData}
    (udata : UInt64)
    (hlen : 0 ≤ d.len ∧ d.len ≤ STREAM_BUF_SIZE) :
    ∃ stream,
      streamOf d udata = .ok stream ∧
        stream.fd = d.fd ∧
        stream.buf_size = d.len.toNat ∧
        stream.buf_size ≤ STREAM_BUF_SIZE ∧
        stream.content = d.content := by
  obtain ⟨n, hn⟩ := Int.eq_ofNat_of_zero_le hlen.1
  have hbuf := d.buf_length
  have hle : n ≤ STREAM_BUF_SIZE := by omega
  have hsize : sizeT d.len = n := by
    rw [hn]
    apply sizeT_natCast
    unfold STREAM_BUF_SIZE at hle
    omega
  have hcopy : memcpy (Block.zeroed STREAM_BUF_SIZE) 0 (Block.ofList d.buf) 0 d.len =
      .ok ((Block.zeroed STREAM_BUF_SIZE).put 0
        ((Block.ofList d.buf).window 0 n)) := by
    refine memcpy_natCast rfl rfl hn ?_ ?_ ?_
    · rw [Block.ofList_size]
      omega
    · simpa [Block.zeroed] using hle
    · unfold STREAM_BUF_SIZE at hle
      omega
  have hsrc : (Block.ofList d.buf).window 0 n = d.buf.take n := by
    rw [← window_take (n := d.buf.length) (by omega), Block.window_ofList]
  refine ⟨_, by simp only [streamOf, hcopy, ok_bind]; rfl, rfl, ?_, ?_, ?_⟩
  · dsimp only
    omega
  · dsimp only
    omega
  · have htake : (d.buf.take n).length = n := by
      rw [List.length_take]
      omega
    simp only [EbStream.content, PackData.content, hsrc, hsize]
    rw [window_take hle, Block.window_put_self htake, hn, Int.toNat_natCast]

/-- The stream of a packet with a length in range. -/
theorem streamOf_eq_ok
    {d : PackData} {udata : UInt64} {stream : EbStream}
    (hlen : 0 ≤ d.len ∧ d.len ≤ STREAM_BUF_SIZE)
    (h : streamOf d udata = .ok stream) :
    stream.fd = d.fd ∧
      stream.buf_size = d.len.toNat ∧
      stream.buf_size ≤ STREAM_BUF_SIZE ∧
      stream.content = d.content := by
  obtain ⟨stream', hstream', hspec⟩ := streamOf_content udata hlen
  rw [h] at hstream'
  cases hstream'
  exact hspec

/-- A push of a packet into the ring of a unit. -/
def pushPack (rq : Ringq) (d : PackData) : Except Stop (Int × Ringq) :=
  ringqPushWithLock rq (Block.ofList d.bytes) PackData.size

/-- A pop of a packet; `stack` is what the destination holds before. -/
def popPack (rq : Ringq) (stack : Nat → UInt8) :
    Except Stop (Int × Ringq × PackData) := do
  let (ret, rq, item) ←
    ringqPopWithLock rq ⟨PackData.size, stack, []⟩ PackData.size
  .ok (ret, rq, .ofBlock item)

/-- A ring with a lock, created with capacity `cap`, that holds these packets. -/
structure PackRing (cap : Nat) (rq : Ringq) (ds : List PackData) : Prop where
  reach : RingReach cap rq (ds.map PackData.bytes)
  lock : rq.use_lock ≠ 0

section PackRing

variable {cap : Nat} {rq rq' : Ringq} {d : PackData} {ds : List PackData}
variable {ret : Int} {stack : Nat → UInt8}

/-- Each packet takes 140 bytes of the ring. -/
theorem used_packs :
    used (ds.map PackData.bytes) = 140 * ds.length := by
  induction ds with
  | nil => simp [used]
  | cons d ds ih =>
      rw [List.map_cons, used_cons, ih, PackData.bytes_length, List.length_cons,
        PackData.size]
      omega

theorem PackRing.num
    (hcap : CapInRange cap)
    (h : PackRing cap rq ds) :
    rq.num = ds.length := by
  obtain ⟨_, hold⟩ := h.reach.holds hcap
  simpa using hold.num

/-- A push appends its packet if 140 bytes are free; otherwise it is refused
and changes nothing. -/
theorem PackRing.push
    (hcap : CapInRange cap)
    (h : PackRing cap rq ds)
    (hpush : pushPack rq d = .ok (ret, rq')) :
    ret = 0 ∧ 140 * ds.length + 140 ≤ cap ∧ PackRing cap rq' (ds ++ [d]) ∨
      ret = -1 ∧ ¬ 140 * ds.length + 140 ≤ cap ∧ rq' = rq := by
  have hsize : PackData.size ≤ (Block.ofList d.bytes).size := by simp
  have hint : InInt (4 + (PackData.size : Nat)) := by decide
  have hwin : (Block.ofList d.bytes).window 0 PackData.size = d.bytes := by
    rw [← PackData.bytes_length d, Block.window_ofList]
  have hlen : (d.bytes).length = 136 := d.bytes_length
  unfold pushPack ringqPushWithLock at hpush
  rw [if_neg h.lock] at hpush
  have hreach := h.reach.push hsize hint hpush
  obtain ⟨_, hold⟩ := h.reach.holds hcap
  rw [hwin] at hreach
  unfold fifoPush at hreach
  rw [used_packs, hlen] at hreach
  by_cases hroom : 140 * ds.length + 140 ≤ cap
  · left
    obtain ⟨mem', hpush', -⟩ := ringqPush_room hcap hold hsize
      (by rw [used_packs, PackData.size]; omega)
    rw [hpush', Except.ok.injEq, ringqPushed, Prod.mk.injEq] at hpush
    obtain ⟨rfl, rfl⟩ := hpush
    rw [if_pos (by omega)] at hreach
    refine ⟨rfl, hroom, ?_, h.lock⟩
    rw [List.map_append]
    exact hreach
  · right
    have hpush' := ringqPush_refused (Block.ofList d.bytes) hcap hold hint
      (by rw [used_packs, PackData.size]; omega)
    rw [hpush', Except.ok.injEq, Prod.mk.injEq] at hpush
    exact ⟨hpush.1.symm, hroom, hpush.2.symm⟩

/-- A pop takes the oldest packet; on an empty ring it fails and changes
nothing. -/
theorem PackRing.pop
    (hcap : CapInRange cap)
    (h : PackRing cap rq ds)
    (hrange : ∀ d ∈ ds, d.InRange)
    (hpop : popPack rq stack = .ok (ret, rq', d)) :
    ds = [] ∧ ret = -1 ∧ rq' = rq ∨
      ∃ ds', ds = d :: ds' ∧ ret = 0 ∧ PackRing cap rq' ds' := by
  unfold popPack ringqPopWithLock at hpop
  rw [if_neg h.lock] at hpop
  obtain ⟨⟨ret₁, rq₁, item⟩, hpop₁, heq⟩ := bind_eq_ok.mp hpop
  cases heq
  obtain ⟨_, hold⟩ := h.reach.holds hcap
  cases ds with
  | nil =>
      rw [ringqPop_nil hold, Except.ok.injEq, Prod.mk.injEq, Prod.mk.injEq] at hpop₁
      exact .inl ⟨rfl, hpop₁.1.symm, hpop₁.2.1.symm⟩
  | cons d₀ ds' =>
      right
      have hlen : d₀.bytes.length = PackData.size := d₀.bytes_length
      obtain ⟨item', hpop', hinto⟩ := ringqPop_cons
        ⟨PackData.size, stack, []⟩ hcap hold (Nat.le_of_eq hlen)
      have hreach := h.reach.pop (n := PackData.size)
        (fun r rs he => by
          obtain ⟨rfl, -⟩ := List.cons.inj he
          exact ⟨hlen.symm, Nat.le_refl _⟩) hpop₁
      rw [hlen] at hpop'
      rw [hpop', ringqPopped, Except.ok.injEq, Prod.mk.injEq, Prod.mk.injEq] at hpop₁
      obtain ⟨rfl, rfl, rfl⟩ := hpop₁
      have hback : PackData.ofBlock item' = d₀ :=
        PackData.ofBlock_of_window (hrange d₀ (by simp)) (hlen ▸ hinto.2.1)
      exact ⟨ds', by rw [hback], rfl, hreach, h.lock⟩

end PackRing

end Ebot
