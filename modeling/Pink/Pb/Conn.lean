import Pink.Redis.Conn
import Pink.Server.Threads

/-! # A protobuf connection

`PbConn`: the state machine of `GetRequest`, which reads frames of a four-byte length and a body
into a buffer that grows with the frame, `TryResizeBuffer`, which the cron task calls to shrink the
buffer again, and the queue of outgoing items that `WriteResp` fills and `SendReply` empties.

The bytes of the buffer are those written to it so far; `malloc` and `realloc` leave the others
unspecified. A read that writes behind the end of the buffer sets `overflow`. -/

namespace Pink.Pb.Conn

open Pink.Redis.Wire Pink.Lib.Runs
open Pink.Redis.Conn (WriteStatus)
open Pink.Server.Threads (ReadStatus)

def kProtoMaxMessage : ℕ := 512 * 1024 * 1024
def PB_IOBUF_LEN : ℕ := 67108864
def COMMAND_HEADER_LENGTH : ℕ := 4

/-! ### 32-bit arithmetic -/

/-- Conversion to `uint32_t`. -/
@[irreducible] def uint32 (n : ℕ) : ℕ := n % 2 ^ 32

/-- Difference of two `uint32_t`. -/
@[irreducible] def sub32 (a b : ℕ) : ℕ := (((a : ℤ) - b) % 2 ^ 32).toNat

/-- Conversion to `int32_t`. -/
@[irreducible] def int32 (v : ℤ) : ℤ := Int.bmod v (2 ^ 32)

theorem uint32_of_lt {n : ℕ} (h : n < 2 ^ 32) : uint32 n = n := by
  unfold uint32; exact Nat.mod_eq_of_lt h

theorem sub32_of_le {a b : ℕ} (h : b ≤ a) (ha : a < 2 ^ 32) : sub32 a b = a - b := by
  unfold sub32; omega

theorem int32_of_lt {v : ℤ} (h0 : 0 ≤ v) (h : v < 2 ^ 31) : int32 v = v := by
  unfold int32; exact Int.bmod_eq_of_le (by omega) (by omega)

/-- The bytes of `htonl` of a number, as they stand in memory. -/
def htonl (n : ℕ) : Bytes :=
  [UInt8.ofNat (n / 2 ^ 24), UInt8.ofNat (n / 2 ^ 16), UInt8.ofNat (n / 2 ^ 8), UInt8.ofNat n]

/-- `ntohl` of the `uint32_t` whose bytes in memory are the first four of the buffer. -/
def ntohl : Bytes → ℕ
  | a :: b :: c :: d :: _ => a.toNat * 2 ^ 24 + b.toNat * 2 ^ 16 + c.toNat * 2 ^ 8 + d.toNat
  | _ => 0

theorem length_htonl (n : ℕ) : (htonl n).length = 4 := rfl

theorem ntohl_htonl {n : ℕ} (h : n < 2 ^ 32) (bs : Bytes) : ntohl (htonl n ++ bs) = n := by
  simp only [htonl, List.cons_append, ntohl, UInt8.toNat_ofNat']
  omega

/-! ### Reading -/

inductive ConnStatus
  | header | packet | complete | buildObuf | writeObuf
  deriving DecidableEq, Repr

/-- A call of `read` as it is made: where in the buffer, how many bytes, and how large the buffer
is. -/
structure Read where
  pos : ℕ
  count : ℕ
  rbufLen : ℕ
  deriving DecidableEq, Repr

/-- The part of `PbConn` that `GetRequest` works on. -/
structure PbConn where
  headerLen : ℕ := 2 ^ 32 - 1
  /-- `none` after a failed `realloc`. -/
  rbuf : Option Bytes := some []
  curPos : ℕ := 0
  rbufLen : ℕ := PB_IOBUF_LEN
  remainPacketLen : ℤ := 0
  connStatus : ConnStatus := .header
  overflow : Bool := false
  reads : List Read := []
  deriving DecidableEq, Repr

/-- How a call of `read` ends, as far as the peer and the kernel decide it: with some of the bytes
that the peer has sent, `k + 1` of them if there are so many and so many were asked for. -/
inductive Recv
  | data (k : ℕ)
  | eagain
  | closed
  | failed
  deriving DecidableEq, Repr

inductive Got
  | bytes (bs : Bytes)
  | eagain
  | eof
  | error
  deriving DecidableEq, Repr

/-- A connection and the bytes that the peer has sent and that have not been read. A call of
`GetRequest` is recorded with what it returns and with the length and the body that each
`DealMessage` made by it finds. -/
structure World where
  conn : PbConn := {}
  input : Bytes := []
  calls : List (Option ReadStatus × List (ℕ × Bytes)) := []
  deriving DecidableEq, Repr

/-- What `DealMessage` finds, over all calls. -/
def World.dealt (w : World) : List (ℕ × Bytes) := w.calls.flatMap Prod.snd

/-- The result of `read` of `count` bytes. -/
def answer (input : Bytes) (count : ℕ) (r : Recv) : Got :=
  if count = 0 then .eof else
  match r with
  | .data k => if input = [] then .eagain else .bytes (input.take (min (k + 1) count))
  | .eagain => .eagain
  | .closed => .eof
  | .failed => .error

/-- The bytes of the buffer after `bs` has been written at `pos`. -/
def store (rbuf : Bytes) (pos : ℕ) (bs : Bytes) : Bytes :=
  rbuf.take pos ++ bs ++ rbuf.drop (pos + bs.length)

theorem take_store {b bs : Bytes} {pos : ℕ} (h : pos ≤ b.length) :
    (store b pos bs).take (pos + bs.length) = b.take pos ++ bs := by
  have hl : (b.take pos ++ bs).length = pos + bs.length := by simp [h]
  unfold store
  rw [← hl, List.take_left]

theorem le_length_store {b bs : Bytes} {pos : ℕ} (h : pos ≤ b.length) :
    pos + bs.length ≤ (store b pos bs).length := by
  simp [store, h]

/-- `read(fd(), rbuf_ + cur_pos_, count)`. The null pointer is a bad address. -/
def World.read (w : World) (count : ℕ) (r : Recv) : World × Got :=
  let c := w.conn
  let c := { c with reads := c.reads ++ [⟨c.curPos, count, c.rbufLen⟩] }
  match answer w.input count r with
  | .bytes bs =>
    match c.rbuf with
    | none => ({ w with conn := c }, .error)
    | some rbuf =>
      ({ w with
          conn := { c with
            rbuf := some (store rbuf c.curPos bs)
            overflow := c.overflow || decide (c.rbufLen < c.curPos + bs.length) }
          input := w.input.drop bs.length }, .bytes bs)
  | g => ({ w with conn := c }, g)

theorem read_calls (w : World) (n : ℕ) (r : Recv) : (w.read n r).1.calls = w.calls := by
  unfold World.read
  dsimp only
  split
  · split <;> rfl
  · rfl

/-- What is decided outside `GetRequest` during a call: how the reads end, `EAGAIN` when the list is
used up, whether `realloc` finds memory, and what `DealMessage` returns. -/
structure Env where
  recvs : List Recv
  realloc : Bool := true
  deal : ℤ := 0
  deriving DecidableEq, Repr

/-- A call in progress: the reads to come, the messages dealt with, and what is returned. -/
structure Call where
  w : World
  recvs : List Recv
  dealt : List (ℕ × Bytes) := []
  status : Option ReadStatus := none
  deriving DecidableEq, Repr

def nextRecv (rs : List Recv) : Recv := rs.headD .eagain

/-- `case kHeader`. -/
def headerTurn (x : Call) : Call :=
  match x.w.read (sub32 COMMAND_HEADER_LENGTH x.w.conn.curPos) (nextRecv x.recvs) with
  | (w, .eagain) => { x with w := w, recvs := x.recvs.tail, status := some .readHalf }
  | (w, .error) => { x with w := w, recvs := x.recvs.tail, status := some .readError }
  | (w, .eof) => { x with w := w, recvs := x.recvs.tail, status := some .readClose }
  | (w, .bytes bs) =>
    let c := { w.conn with curPos := uint32 (w.conn.curPos + bs.length) }
    if c.curPos = COMMAND_HEADER_LENGTH then
      let n := ntohl (c.rbuf.getD [])
      { x with
        w := { w with conn := { c with
          headerLen := n, remainPacketLen := int32 n, connStatus := .packet } }
        recvs := x.recvs.tail }
    else { x with w := { w with conn := c }, recvs := x.recvs.tail, status := some .readHalf }

/-- The part of `case kPacket` that makes room for the body; `false` for `kFullError`. -/
def grow (c : PbConn) (realloc : Bool) : PbConn × Bool :=
  if sub32 c.rbufLen COMMAND_HEADER_LENGTH < c.headerLen then
    let newSize := uint32 (c.headerLen + COMMAND_HEADER_LENGTH)
    if newSize < kProtoMaxMessage then
      if realloc then
        ({ c with rbuf := some ((c.rbuf.getD []).take newSize), rbufLen := newSize }, true)
      else ({ c with rbuf := none }, false)
    else (c, false)
  else (c, true)

/-- `case kPacket`. -/
def packetTurn (x : Call) (realloc : Bool) : Call :=
  match grow x.w.conn realloc with
  | (c, false) => { x with w := { x.w with conn := c }, status := some .fullError }
  | (c, true) =>
    match { x.w with conn := c }.read (sizeT c.remainPacketLen) (nextRecv x.recvs) with
    | (w, .eagain) => { x with w := w, recvs := x.recvs.tail, status := some .readHalf }
    | (w, .error) => { x with w := w, recvs := x.recvs.tail, status := some .readError }
    | (w, .eof) => { x with w := w, recvs := x.recvs.tail, status := some .readClose }
    | (w, .bytes bs) =>
      let c := { w.conn with
        curPos := uint32 (w.conn.curPos + bs.length)
        remainPacketLen := int32 (w.conn.remainPacketLen - bs.length) }
      if c.remainPacketLen = 0 then
        { x with w := { w with conn := { c with connStatus := .complete } }, recvs := x.recvs.tail }
      else { x with w := { w with conn := c }, recvs := x.recvs.tail, status := some .readHalf }

/-- The body of the frame in the buffer, `rbuf_[4, 4 + header_len_)`. -/
def PbConn.body (c : PbConn) : Bytes :=
  ((c.rbuf.getD []).drop COMMAND_HEADER_LENGTH).take c.headerLen

/-- `case kComplete`. -/
def completeTurn (x : Call) (deal : ℤ) : Call :=
  let c := x.w.conn
  let x := { x with dealt := x.dealt ++ [(c.headerLen, c.body)] }
  if deal ≠ 0 then { x with status := some .dealError }
  else
    { x with
      w := { x.w with conn := { c with connStatus := .header, curPos := 0 } }
      status := some .readAll }

/-- One turn of the loop. The last two cases of the `switch` change nothing and do not leave the
loop. -/
def turn (e : Env) (x : Call) : Call :=
  match x.w.conn.connStatus with
  | .header => headerTurn x
  | .packet => packetTurn x e.realloc
  | .complete => completeTurn x e.deal
  | .buildObuf | .writeObuf => x

/-- The loop of `GetRequest`; without a status when it does not end within `fuel` turns. -/
def turns (e : Env) : ℕ → Call → Call
  | 0, x => x
  | fuel + 1, x => if x.status.isSome then x else turns e fuel (turn e x)

/-- `PbConn::GetRequest`. A turn that does not return goes on to the next of the three cases, so
three turns are enough. -/
def getRequest (w : World) (e : Env) : World :=
  let x := turns e 3 { w := w, recvs := e.recvs }
  { x.w with calls := x.w.calls ++ [(x.status, x.dealt)] }

/-- The size that `TryResizeBuffer` shrinks the buffer to. -/
def shrinkSize (curPos : ℕ) : ℕ :=
  uint32 (uint32 (PB_IOBUF_LEN + curPos) / PB_IOBUF_LEN * PB_IOBUF_LEN)

/-- There is room for a fresh buffer and for all that has been received. -/
theorem le_shrinkSize {curPos : ℕ} (h : curPos < 2 ^ 29) :
    PB_IOBUF_LEN ≤ shrinkSize curPos ∧ curPos ≤ shrinkSize curPos := by
  have hle := Nat.div_mul_le_self (PB_IOBUF_LEN + curPos) PB_IOBUF_LEN
  have hlt : PB_IOBUF_LEN + curPos < 2 ^ 32 := by unfold PB_IOBUF_LEN; omega
  rw [shrinkSize, uint32_of_lt hlt, uint32_of_lt (lt_of_le_of_lt hle hlt)]
  unfold PB_IOBUF_LEN
  omega

/-- `PbConn::TryResizeBuffer`, the connection being idle for `idletime` seconds. Dividing by
`cur_pos_ + 1 = 0` cannot happen before `cur_pos_` has reached its largest value. -/
def tryResizeBuffer (c : PbConn) (idletime : ℤ) (realloc : Bool) : PbConn :=
  if PB_IOBUF_LEN < c.rbufLen ∧ (2 < c.rbufLen / uint32 (c.curPos + 1) ∨ 2 < idletime) then
    let newSize := shrinkSize c.curPos
    if newSize < c.rbufLen then
      { c with
        rbuf := if realloc then some ((c.rbuf.getD []).take newSize) else none
        rbufLen := newSize }
    else c
  else c

inductive Op
  | getRequest (e : Env)
  | tryResizeBuffer (idletime : ℤ) (realloc : Bool)
  deriving DecidableEq, Repr

def step (w : World) : Op → World
  | .getRequest e => getRequest w e
  | .tryResizeBuffer idletime realloc =>
    { w with conn := tryResizeBuffer w.conn idletime realloc }

/-! ### Sending -/

structure WriteBuf where
  queue : List Bytes := []
  itemPos : ℕ := 0
  deriving DecidableEq, Repr

/-- `PbConn::BuildInternalTag`. -/
def buildInternalTag (resp : Bytes) : Bytes := htonl (uint32 resp.length)

/-- The two items of a response. -/
def WriteBuf.push (buf : WriteBuf) (resp : Bytes) : WriteBuf :=
  { buf with queue := buf.queue ++ [buildInternalTag resp, resp] }

/-- How a call of `write` ends: with `k` bytes written, if so many were asked for, or -1. -/
inductive Sent
  | wrote (k : ℕ)
  | eagain
  | failed
  deriving DecidableEq, Repr

/-- Where the inner loop of `SendReply` ends: its condition is false, or `write` returned 0 or -1. -/
inductive Stop
  | done | zero | eagain | failed
  deriving DecidableEq, Repr

/-- The variables of `SendReply`, and the bytes written so far. -/
structure Sending where
  buf : WriteBuf
  itemLen : ℕ
  written : Bytes
  deriving DecidableEq, Repr

/-- The assignments of the inner loop after `n` bytes of the item have been written. -/
def Sending.advance (x : Sending) (item : Bytes) (n : ℕ) : Sending :=
  let written := x.written ++ (item.drop x.buf.itemPos).take n
  if x.buf.itemPos + n = x.itemLen then ⟨⟨x.buf.queue.tail, 0⟩, 0, written⟩
  else ⟨{ x.buf with itemPos := x.buf.itemPos + n }, x.itemLen, written⟩

/-- The inner loop of `SendReply`; the kernel takes no more bytes when the list is used up. The
difference of two `size_t` is positive when they differ. -/
def writeItem (item : Bytes) : List Sent → Sending → Sending × Stop × List Sent
  | [], x => (x, if x.itemLen = x.buf.itemPos then .done else .eagain, [])
  | .wrote k :: outs, x =>
    if x.itemLen = x.buf.itemPos then (x, .done, .wrote k :: outs)
    else
      let n := min k (subSize x.itemLen x.buf.itemPos)
      if n = 0 then (x, .zero, outs) else writeItem item outs (x.advance item n)
  | .eagain :: outs, x =>
    if x.itemLen = x.buf.itemPos then (x, .done, .eagain :: outs) else (x, .eagain, outs)
  | .failed :: outs, x =>
    if x.itemLen = x.buf.itemPos then (x, .done, .failed :: outs) else (x, .failed, outs)

/-- The outer loop of `SendReply`; no status when it does not end within `fuel` turns. -/
def sendLoop : ℕ → WriteBuf → Bytes → List Sent → WriteBuf × Bytes × Option WriteStatus
  | 0, buf, written, _ => (buf, written, none)
  | fuel + 1, buf, written, outs =>
    match buf.queue with
    | [] => (buf, written, some .writeAll)
    | item :: _ =>
      match writeItem item outs ⟨buf, item.length, written⟩ with
      | (x, .eagain, _) => (x.buf, x.written, some .writeHalf)
      | (x, .failed, _) => (x.buf, x.written, some .writeError)
      | (x, _, outs) =>
        if x.itemLen = x.buf.itemPos then sendLoop fuel x.buf x.written outs
        else (x.buf, x.written, some .writeHalf)

/-- `PbConn::SendReply`. A turn that does not return takes an item off the queue, unless the item is
empty, so as many turns as there are items are enough for items that are not. -/
def sendReply (buf : WriteBuf) (written : Bytes) (outs : List Sent) :
    WriteBuf × Bytes × Option WriteStatus :=
  sendLoop (buf.queue.length + 1) buf written outs

/-- `PbConn::set_is_reply`. -/
def setIsReply (isReply : ℤ) (b : Bool) : ℤ :=
  let n := if b then isReply + 1 else isReply - 1
  if n < 0 then 0 else n

end Pink.Pb.Conn
