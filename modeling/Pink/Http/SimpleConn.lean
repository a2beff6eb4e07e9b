import Pink.Http.Conn
import Pink.Http.Simple
import Pink.Pb.Conn

/-! # A simple HTTP connection

`SimpleHTTPConn`: the state machine of `GetRequest`, which collects the header block in `rbuf_` and
appends the body to the request piece by piece, `DealMessage`, which makes a response of the request,
and `SendReply`, which fills `wbuf_` with the head and as much of the body as there is room for,
writes it, and fills it again.

`rbuf_` is given by its first `rbuf_pos_` bytes. `slash::StringToLower` and `slash::string2l`, which
are not part of this repository, are parameters. -/

namespace Pink.Http.SimpleConn

open Pink.Redis.Wire Pink.Http.Simple
open Pink.Http.Request (cstr assign lookup findSub)
open Pink.Pb.Conn (ConnStatus Recv Got answer nextRecv store uint32 sub32)
open Pink.Redis.Conn (WriteStatus)
open Pink.Server.Threads (ReadStatus)

def kHTTPMaxMessage : ℕ := 1024 * 1024 * 8
def kHTTPMaxHeader : ℕ := 1024 * 64

/-! ### The response -/

structure Response where
  statusCode : ℕ := 0
  reasonPhrase : Bytes := []
  headers : Params := []
  body : Bytes := []
  deriving DecidableEq, Repr

/-- `Response::Clear`. -/
def Response.clear (_ : Response) : Response := {}

/-- `Response::SetStatusCode` of a code that it does not assert against. -/
def Response.setStatusCode (r : Response) (code : ℕ) : Response :=
  { r with statusCode := code, reasonPhrase := Conn.reasonPhrase code }

/-- A call of `snprintf`: where in `data`, the size it is given, and the text. -/
structure Print where
  pos : ℕ
  size : ℕ
  text : Bytes
  deriving DecidableEq, Repr

/-- `data` after a call: the text as far as there is room, and a terminating zero. -/
def Print.store (p : Print) (data : Bytes) : Bytes :=
  if p.size = 0 then data else Pb.Conn.store data p.pos (p.text.take (p.size - 1) ++ [0])

/-- A header being serialized: `serial_size`, the bytes of `data`, and the calls of `snprintf` so
far. -/
structure Printing where
  serialSize : ℕ := 0
  data : Bytes := []
  prints : List Print := []
  deriving DecidableEq, Repr

/-- `serial_size += snprintf(data + serial_size, size - serial_size, ...)`. -/
def Printing.print (x : Printing) (size : ℕ) (text : Bytes) : Printing :=
  let p : Print := ⟨x.serialSize, subSize size x.serialSize, text⟩
  { serialSize := x.serialSize + text.length, data := p.store x.data, prints := x.prints ++ [p] }

/-- The status line. -/
def statusLine (r : Response) : Bytes :=
  bytes "HTTP/1.1 " ++ decimalNat r.statusCode ++ bytes " " ++ cstr r.reasonPhrase ++ [CR, LF]

/-- The line of a header. -/
def headerLine (h : Bytes × Bytes) : Bytes := cstr h.1 ++ bytes ": " ++ cstr h.2 ++ [CR, LF]

/-- The Content-Length header that `SerializeHeaderToArray` adds, the size being converted to `int`. -/
def Response.withLength (r : Response) : Response :=
  if (lookup r.headers (bytes "Content-Length")).isSome then r
  else
    { r with
      headers := assign r.headers (bytes "Content-Length") (decimal (toInt32 r.body.length)) }

/-- `snprintf` does not print a text whose length is not an `int`. -/
def unprintable (text : Bytes) : Bool := 2 ^ 31 ≤ text.length

/-- The lines of the headers, and the empty line: what is returned, and the prints. The sum of the
lengths is that of the source as long as it is an `int`; once it is beyond `size`, the next print is
outside of `data`. -/
def printLines (size : ℕ) : List Bytes → Printing → ℤ × Printing
  | [], x =>
    let x := x.print size [CR, LF]
    (x.serialSize, x)
  | line :: lines, x =>
    let x := x.print size line
    if unprintable line then (-1, x)
    else if (x.serialSize : ℤ) = toInt32 size then (x.serialSize, x)
    else printLines size lines x

/-- `Response::SerializeHeaderToArray`. -/
def serializeHeaderToArray (r : Response) (size : ℕ) : Response × ℤ × Printing :=
  let x := ({} : Printing).print size (statusLine r)
  if unprintable (statusLine r) then (r, -1, x)
  else if (x.serialSize : ℤ) = toInt32 size then (r, x.serialSize, x)
  else
    let r := r.withLength
    (r, printLines size (r.headers.map headerLine) x)

/-! ### The connection -/

structure SimpleHTTPConn where
  connStatus : ConnStatus := .header
  /-- The first `rbuf_pos_` bytes of `rbuf_`. -/
  rbuf : Bytes := []
  headerLen : ℕ := 0
  remainPacketLen : ℕ := 0
  request : Request := { method := bytes "GET", path := bytes "/index" }
  response : Response := {}
  isReply : Bool := false
  /-- The bytes of `wbuf_`. -/
  wbuf : Bytes := []
  wbufLen : ℕ := 0
  wbufPos : ℕ := 0
  responsePos : ℤ := -1
  deriving DecidableEq, Repr

variable (stringToLower : Bytes → Bytes) (string2l : Bytes → ℕ → Option ℤ)

/-- The value of the Content-Length header; 0 if there is none, or none that `string2l` accepts. -/
def contentLength (r : Request) : ℤ :=
  match lookup r.headers (bytes "content-length") with
  | none => 0
  | some s => (string2l s s.length).getD 0

/-- The counter after `BuildRequestHeader`, for a header with the value `v`, when the header block
ends at `headerLen` and `rbufPos` bytes have come. -/
def remainOf (v : ℤ) (headerLen rbufPos : ℕ) : ℕ :=
  if headerLen < rbufPos then subSize (sizeT v) (rbufPos - headerLen) else sizeT v

/-- `SimpleHTTPConn::BuildRequestHeader`; `none` when it returns false. -/
def buildRequestHeader (c : SimpleHTTPConn) : Option SimpleHTTPConn :=
  (parseHeadFromArray stringToLower c.request.clear (c.rbuf.take c.headerLen)).map fun request =>
    { c with
      request := request
      remainPacketLen := remainOf (contentLength string2l request) c.headerLen c.rbuf.length }

/-- `SimpleHTTPConn::AppendRequestBody`, which always returns true. -/
def appendRequestBody (c : SimpleHTTPConn) : SimpleHTTPConn :=
  { c with request := (parseBodyFromArray c.request (c.rbuf.drop c.headerLen)).getD c.request }

/-- A connection and the bytes that the peer has sent and that have not been read. A call of
`GetRequest` is recorded with what it returns and with the requests that it gives to `DealMessage`,
a call of `SendReply` with what it returns. -/
structure World where
  conn : SimpleHTTPConn := {}
  input : Bytes := []
  calls : List (Option ReadStatus × List Request) := []
  out : Bytes := []
  replies : List WriteStatus := []
  deriving DecidableEq, Repr

/-- `read(fd(), rbuf_ + rbuf_pos_, count)`. -/
def World.read (w : World) (count : ℕ) (r : Recv) : World × Got :=
  match answer w.input count r with
  | .bytes bs =>
    ({ w with conn := { w.conn with rbuf := w.conn.rbuf ++ bs }, input := w.input.drop bs.length },
      .bytes bs)
  | g => (w, g)

/-- What is decided outside `GetRequest` during a call: how the reads end, `EAGAIN` when the list is
used up, and the response that `DealMessage` makes. -/
structure Env where
  recvs : List Recv
  deal : Response := {}
  deriving DecidableEq, Repr

/-- A call in progress: the reads to come, the requests dealt with, and what is returned. -/
structure Call where
  w : World
  recvs : List Recv
  dealt : List Request := []
  status : Option ReadStatus := none
  deriving DecidableEq, Repr

/-- The request asks for the interim reply. -/
def expects (r : Request) : Bool :=
  lookup r.headers (bytes "expect") = some (bytes "100-continue") ∨
    lookup r.headers (bytes "expect") = some (bytes "100-Continue")

/-- `case kHeader` after a read that brought bytes. -/
def headerGot (x : Call) : Call :=
  let c := x.w.conn
  match findSub [CR, LF, CR, LF] (cstr c.rbuf) with
  | none => x
  | some sepPos =>
    let c := { c with headerLen := sepPos + 4 }
    match buildRequestHeader stringToLower string2l c with
    | none =>
      { x with
        w := { x.w with conn := { c with request := c.request.clear } }, status := some .readError }
    | some c =>
      if expects c.request then
        { x with
          w := { x.w with conn := { c with
            response := c.response.clear.setStatusCode 100, isReply := true, connStatus := .packet } }
          status := if 0 < c.remainPacketLen then some .readHalf else none }
      else { x with w := { x.w with conn := { c with connStatus := .packet } } }

/-- `case kHeader`. -/
def headerTurn (x : Call) : Call :=
  match x.w.read (sub32 kHTTPMaxHeader x.w.conn.rbuf.length) (nextRecv x.recvs) with
  | (w, .eagain) => { x with w := w, recvs := x.recvs.tail, status := some .readHalf }
  | (w, .eof) => { x with w := w, recvs := x.recvs.tail, status := some .readClose }
  | (w, .error) => { x with w := w, recvs := x.recvs.tail, status := some .readClose }
  | (w, .bytes _) => headerGot stringToLower string2l { x with w := w, recvs := x.recvs.tail }

/-- The number of bytes that `case kPacket` asks for. -/
def packetCount (c : SimpleHTTPConn) : ℕ :=
  if c.remainPacketLen < sub32 kHTTPMaxMessage c.rbuf.length then c.remainPacketLen
  else sub32 kHTTPMaxMessage c.rbuf.length

/-- `case kPacket` after its read. -/
def packetGot (x : Call) : Call :=
  let c := x.w.conn
  if c.remainPacketLen = 0 ∨ c.rbuf.length = kHTTPMaxMessage then
    let c := appendRequestBody c
    if c.remainPacketLen = 0 then { x with w := { x.w with conn := { c with connStatus := .complete } } }
    else { x with w := { x.w with conn := { c with rbuf := [], headerLen := 0 } } }
  else x

/-- `case kPacket`. -/
def packetTurn (x : Call) : Call :=
  if 0 < x.w.conn.remainPacketLen then
    match x.w.read (packetCount x.w.conn) (nextRecv x.recvs) with
    | (w, .eagain) => { x with w := w, recvs := x.recvs.tail, status := some .readHalf }
    | (w, .eof) => { x with w := w, recvs := x.recvs.tail, status := some .readClose }
    | (w, .error) => { x with w := w, recvs := x.recvs.tail, status := some .readClose }
    | (w, .bytes bs) =>
      let c := { w.conn with remainPacketLen := subSize w.conn.remainPacketLen bs.length }
      packetGot { x with w := { w with conn := c }, recvs := x.recvs.tail }
  else packetGot x

/-- `case kComplete`, with `HandleMessage`. -/
def completeTurn (x : Call) (deal : Response) : Call :=
  let c := x.w.conn
  { x with
    w := { x.w with conn := { c with
      response := deal, isReply := true, connStatus := .header, rbuf := [] } }
    dealt := x.dealt ++ [c.request]
    status := some .readAll }

/-- One turn of the loop of `GetRequest`. -/
def turn (e : Env) (x : Call) : Call :=
  match x.w.conn.connStatus with
  | .header => headerTurn stringToLower string2l x
  | .packet => packetTurn x
  | .complete => completeTurn x e.deal
  | .buildObuf | .writeObuf => { x with status := some .readError }

/-- The loop of `GetRequest`; without a status when it does not end within `fuel` turns. -/
def turns (e : Env) : ℕ → Call → Call
  | 0, x => x
  | fuel + 1, x => if x.status.isSome then x else turns e fuel (turn stringToLower string2l e x)

/-- `SimpleHTTPConn::GetRequest`. All turns but two make a read, and the last read finds nothing. -/
def getRequest (w : World) (e : Env) : World :=
  let x := turns stringToLower string2l e (e.recvs.length + 3) { w := w, recvs := e.recvs }
  { x.w with calls := x.w.calls ++ [(x.status, x.dealt)] }

/-! ### Sending -/

/-- `FillResponseBuf` for the head, if it has not been serialized yet; `false` when it cannot be. -/
def fillHead (c : SimpleHTTPConn) : SimpleHTTPConn × Bool :=
  if c.responsePos < 0 then
    let (response, actual, x) :=
      serializeHeaderToArray c.response (sub32 kHTTPMaxMessage c.wbufLen)
    let c := { c with response := response, wbuf := store c.wbuf c.wbufLen x.data }
    if actual < 0 then (c, false)
    else ({ c with wbufLen := uint32 (c.wbufLen + actual.toNat), responsePos := 0 }, true)
  else (c, true)

/-- The number of bytes that `SerializeBodyToArray` copies. -/
def bodyCount (c : SimpleHTTPConn) : ℕ :=
  min (kHTTPMaxMessage - c.wbufLen) (c.response.body.length - c.responsePos.toNat)

/-- The loop of `FillResponseBuf` over the body; a turn fills `wbuf_` or takes the rest of the body,
so there is one at most. It is undefined, `none`, what happens when `response_pos_` overflows. -/
def fillBody (c : SimpleHTTPConn) : Option SimpleHTTPConn :=
  if c.responsePos.toNat < c.response.body.length ∧ c.wbufLen < kHTTPMaxMessage then
    if c.responsePos + bodyCount c < 2 ^ 31 then
      some { c with
        wbuf := store c.wbuf c.wbufLen ((c.response.body.drop c.responsePos.toNat).take (bodyCount c))
        wbufLen := c.wbufLen + bodyCount c
        responsePos := c.responsePos + bodyCount c }
    else none
  else some c

/-- `SimpleHTTPConn::FillResponseBuf`. -/
def fillResponseBuf (c : SimpleHTTPConn) : Option (SimpleHTTPConn × Bool) :=
  match fillHead c with
  | (c, false) => some (c, false)
  | (c, true) => (fillBody c).map fun c => (c, true)

/-- A call of `SendReply` in progress: the bytes written, and `wbuf_pos_` and `wbuf_len_` at each
`write`. -/
structure Sending where
  conn : SimpleHTTPConn
  out : Bytes := []
  writes : List (ℕ × ℕ) := []
  deriving DecidableEq, Repr

/-- `write` of `n` bytes from `wbuf_pos_` on. -/
def Sending.write (x : Sending) (n : ℕ) : Sending :=
  { conn := { x.conn with wbufPos := x.conn.wbufPos + n }
    out := x.out ++ (x.conn.wbuf.drop x.conn.wbufPos).take n
    writes := x.writes ++ [(x.conn.wbufPos, x.conn.wbufLen)] }

/-- The loop of `SendReply`; the kernel takes no more bytes when the list is used up. It is undefined,
`none`, what is written from outside of `wbuf_`. -/
def sendLoop : List Pb.Conn.Sent → Sending → Option (Sending × WriteStatus)
  | outs, x =>
    if x.conn.wbufLen = 0 then some ({ x with conn := { x.conn with responsePos := -1 } }, .writeAll)
    else if kHTTPMaxMessage < x.conn.wbufLen then none
    else
      match outs with
      | [] => some (x.write 0, .writeHalf)
      | .eagain :: _ => some (x.write 0, .writeHalf)
      | .failed :: _ => some (x.write 0, .writeError)
      | .wrote k :: outs =>
        let n := min k (sub32 x.conn.wbufLen x.conn.wbufPos)
        let x := x.write n
        if n = 0 then some (x, .writeError)
        else if x.conn.wbufPos = x.conn.wbufLen then
          match fillResponseBuf { x.conn with wbufLen := 0, wbufPos := 0 } with
          | none => none
          | some (c, false) => some ({ x with conn := c }, .writeError)
          | some (c, true) => sendLoop outs { x with conn := c }
        else sendLoop outs x

/-- `SimpleHTTPConn::SendReply`. -/
def sendReply (c : SimpleHTTPConn) (outs : List Pb.Conn.Sent) : Option (Sending × WriteStatus) :=
  match fillResponseBuf c with
  | none => none
  | some (c, false) => some ({ conn := c }, .writeError)
  | some (c, true) => sendLoop outs { conn := c }

/-! ### The run -/

inductive Op
  | getRequest (e : Env)
  | sendReply (outs : List Pb.Conn.Sent)
  deriving DecidableEq, Repr

/-- The connection has not been closed: every call so far returned a status to go on with. -/
def World.alive (w : World) : Bool :=
  w.calls.all (fun x => Conn.goesOn x.1) && w.replies.all (fun st => st ≠ .writeError)

/-- One event of the loop, which sends only when there is a reply and takes `set_is_reply` back after
`kWriteAll`; `none` when it cannot happen. -/
def stepOption (w : World) : Op → Option World
  | .getRequest e => if w.alive then some (getRequest stringToLower string2l w e) else none
  | .sendReply outs =>
    if w.alive ∧ w.conn.isReply then
      (SimpleConn.sendReply w.conn outs).map fun (x, st) =>
        { w with
          conn := { x.conn with isReply := decide (st ≠ .writeAll) }
          out := w.out ++ x.out
          replies := w.replies ++ [st] }
    else none

/-- An event that cannot happen changes nothing. -/
def step (w : World) (op : Op) : World := (stepOption stringToLower string2l w op).getD w

/-! ### Frames -/

/-- What a read does: it brings some of the bytes that have not been read, or nothing changes. -/
theorem read_cases (w : World) (count : ℕ) (r : Recv) :
    (∃ g, w.read count r = (w, g) ∧ ∀ bs, g ≠ .bytes bs) ∨
      ∃ bs, w.read count r =
          ({ w with
            conn := { w.conn with rbuf := w.conn.rbuf ++ bs }, input := w.input.drop bs.length },
            .bytes bs) ∧
        bs ≠ [] ∧ bs.length ≤ count ∧ bs <+: w.input := by
  rw [World.read]
  cases hans : answer w.input count r with
  | eagain => exact .inl ⟨_, rfl, by simp⟩
  | eof => exact .inl ⟨_, rfl, by simp⟩
  | error => exact .inl ⟨_, rfl, by simp⟩
  | bytes bs =>
    unfold answer at hans
    refine .inr ⟨bs, rfl, ?_⟩
    by_cases hzero : count = 0
    · simp [hzero] at hans
    · rw [if_neg hzero] at hans
      cases r with
      | eagain => simp at hans
      | closed => simp at hans
      | failed => simp at hans
      | data k =>
        dsimp only at hans
        by_cases hin : w.input = []
        · simp [hin] at hans
        · rw [if_neg hin] at hans
          obtain rfl := Got.bytes.inj hans
          have hlen : 0 < w.input.length := List.length_pos_iff.mpr hin
          refine ⟨?_, ?_, List.take_prefix _ _⟩
          · rw [← List.length_pos_iff, List.length_take]
            omega
          · rw [List.length_take]
            omega

/-- What is made of a read that may bring bytes. -/
theorem read_bytes {w : World} {count : ℕ} {r : Recv} {bs : Bytes}
    (h : (match w.read count r with | (_, .bytes bs) => some bs | _ => none) = some bs) :
    w.read count r =
        ({ w with
          conn := { w.conn with rbuf := w.conn.rbuf ++ bs }, input := w.input.drop bs.length },
          .bytes bs) ∧
      bs.length ≤ count := by
  rcases read_cases w count r with ⟨g, hread, hg⟩ | ⟨bs', hread, -, hle, -⟩
  · rw [hread] at h
    cases g with
    | bytes bs' => exact absurd rfl (hg bs')
    | eagain => simp at h
    | eof => simp at h
    | error => simp at h
  · rw [hread] at h
    obtain rfl := Option.some.inj h
    exact ⟨hread, hle⟩

section

variable {stringToLower string2l}

/-- **A turn in the header** ends the call, or some bytes have come. -/
theorem headerTurn_cases (x : Call) :
    (∃ st, headerTurn stringToLower string2l x =
        { x with recvs := x.recvs.tail, status := some st }) ∨
      ∃ bs, headerTurn stringToLower string2l x = headerGot stringToLower string2l
          { x with
            w := { x.w with
              conn := { x.w.conn with rbuf := x.w.conn.rbuf ++ bs }
              input := x.w.input.drop bs.length }
            recvs := x.recvs.tail } ∧
        bs.length ≤ sub32 kHTTPMaxHeader x.w.conn.rbuf.length := by
  rw [headerTurn]
  rcases read_cases x.w (sub32 kHTTPMaxHeader x.w.conn.rbuf.length) (nextRecv x.recvs) with
    ⟨g, hread, hg⟩ | ⟨bs, hread, -, hle, -⟩
  · rw [hread]
    cases g with
    | bytes bs => exact absurd rfl (hg bs)
    | eagain => exact .inl ⟨_, rfl⟩
    | eof => exact .inl ⟨_, rfl⟩
    | error => exact .inl ⟨_, rfl⟩
  · rw [hread]
    exact .inr ⟨bs, rfl, hle⟩

/-- **A turn in the body** ends the call, or goes on with the bytes that have come, if any were asked
for. -/
theorem packetTurn_cases (x : Call) :
    (∃ st, packetTurn x = { x with recvs := x.recvs.tail, status := some st }) ∨
      ∃ y, packetTurn x = packetGot y ∧ y.w.conn.connStatus = x.w.conn.connStatus := by
  rw [packetTurn]
  split_ifs
  · rcases read_cases x.w (packetCount x.w.conn) (nextRecv x.recvs) with
      ⟨g, hread, hg⟩ | ⟨bs, hread, -⟩
    · rw [hread]
      cases g with
      | bytes bs => exact absurd rfl (hg bs)
      | eagain => exact .inl ⟨_, rfl⟩
      | eof => exact .inl ⟨_, rfl⟩
      | error => exact .inl ⟨_, rfl⟩
    · rw [hread]
      exact .inr ⟨_, rfl, rfl⟩
  · exact .inr ⟨x, rfl, rfl⟩

/-- The connection after a header block has been completed. -/
def SimpleHTTPConn.built (string2l : Bytes → ℕ → Option ℤ) (c : SimpleHTTPConn) (headerLen : ℕ)
    (r : Request) : SimpleHTTPConn :=
  { c with
    connStatus := .packet
    headerLen := headerLen
    request := r
    remainPacketLen := remainOf (contentLength string2l r) headerLen c.rbuf.length }

/-- What `case kHeader` makes of a header block. -/
theorem headerGot_some {x : Call} {i : ℕ} {r : Request}
    (hi : findSub [CR, LF, CR, LF] (cstr x.w.conn.rbuf) = some i)
    (hr : parseHeadFromArray stringToLower {} (x.w.conn.rbuf.take (i + 4)) = some r) :
    headerGot stringToLower string2l x =
      if expects r then
        { x with
          w := { x.w with conn := { x.w.conn.built string2l (i + 4) r with
            response := x.w.conn.response.clear.setStatusCode 100, isReply := true } }
          status :=
            if 0 < (x.w.conn.built string2l (i + 4) r).remainPacketLen then some .readHalf else none }
      else { x with w := { x.w with conn := x.w.conn.built string2l (i + 4) r } } := by
  unfold headerGot
  dsimp only
  rw [hi]
  dsimp only
  have hbuild : buildRequestHeader stringToLower string2l { x.w.conn with headerLen := i + 4 } =
      some { x.w.conn with
        headerLen := i + 4
        request := r
        remainPacketLen := remainOf (contentLength string2l r) (i + 4) x.w.conn.rbuf.length } := by
    unfold buildRequestHeader
    dsimp only [Request.clear]
    rw [hr]
    rfl
  rw [hbuild]
  rfl

end

/-- What sending leaves alone. -/
structure SameInput (c c' : SimpleHTTPConn) : Prop where
  status : c'.connStatus = c.connStatus
  rbuf : c'.rbuf = c.rbuf
  headerLen : c'.headerLen = c.headerLen
  remain : c'.remainPacketLen = c.remainPacketLen
  request : c'.request = c.request

theorem SameInput.refl (c : SimpleHTTPConn) : SameInput c c := ⟨rfl, rfl, rfl, rfl, rfl⟩

theorem SameInput.trans {c c' c'' : SimpleHTTPConn} (h : SameInput c c') (h' : SameInput c' c'') :
    SameInput c c'' :=
  ⟨h'.1.trans h.1, h'.2.trans h.2, h'.3.trans h.3, h'.4.trans h.4, h'.5.trans h.5⟩

theorem fillResponseBuf_same {c c' : SimpleHTTPConn} {ok : Bool}
    (h : fillResponseBuf c = some (c', ok)) : SameInput c c' := by
  have hhead : SameInput c (fillHead c).1 := by
    rw [fillHead]
    split_ifs
    · dsimp only
      split_ifs <;> exact ⟨rfl, rfl, rfl, rfl, rfl⟩
    · exact SameInput.refl c
  rw [fillResponseBuf] at h
  split at h
  case _ c₁ hc₁ =>
    obtain ⟨rfl, -⟩ := Prod.mk.inj (Option.some.inj h)
    rwa [hc₁] at hhead
  case _ c₁ hc₁ =>
    rw [hc₁] at hhead
    obtain ⟨c₂, hbody, hc₂⟩ := Option.map_eq_some_iff.mp h
    obtain ⟨rfl, -⟩ := Prod.mk.inj hc₂
    refine hhead.trans ?_
    rw [fillBody] at hbody
    split_ifs at hbody
    · obtain rfl := Option.some.inj hbody
      exact ⟨rfl, rfl, rfl, rfl, rfl⟩
    · obtain rfl := Option.some.inj hbody
      exact SameInput.refl c₁

theorem sendLoop_same {outs : List Pb.Conn.Sent} {x y : Sending} {st : WriteStatus}
    (h : sendLoop outs x = some (y, st)) : SameInput x.conn y.conn := by
  have hwrite : ∀ (x : Sending) (n : ℕ), SameInput x.conn (x.write n).conn :=
    fun x n => ⟨rfl, rfl, rfl, rfl, rfl⟩
  induction outs generalizing x with
  | nil =>
    rw [sendLoop] at h
    split_ifs at h
    · obtain ⟨rfl, -⟩ := Prod.mk.inj (Option.some.inj h)
      exact ⟨rfl, rfl, rfl, rfl, rfl⟩
    · obtain ⟨rfl, -⟩ := Prod.mk.inj (Option.some.inj h)
      exact hwrite x 0
  | cons o outs ih =>
    rw [sendLoop.eq_def] at h
    dsimp only at h
    split_ifs at h
    · obtain ⟨rfl, -⟩ := Prod.mk.inj (Option.some.inj h)
      exact ⟨rfl, rfl, rfl, rfl, rfl⟩
    · cases o with
      | eagain =>
        obtain ⟨rfl, -⟩ := Prod.mk.inj (Option.some.inj h)
        exact hwrite x 0
      | failed =>
        obtain ⟨rfl, -⟩ := Prod.mk.inj (Option.some.inj h)
        exact hwrite x 0
      | wrote k =>
        dsimp only at h
        split_ifs at h
        · obtain ⟨rfl, -⟩ := Prod.mk.inj (Option.some.inj h)
          exact hwrite x _
        · have hempty := hwrite x (min k (sub32 x.conn.wbufLen x.conn.wbufPos))
          split at h
          · simp at h
          case _ c hfill =>
            obtain ⟨rfl, -⟩ := Prod.mk.inj (Option.some.inj h)
            have hfilled := fillResponseBuf_same hfill
            exact ⟨hfilled.1, hfilled.2, hfilled.3, hfilled.4, hfilled.5⟩
          case _ c hfill =>
            have hfilled := fillResponseBuf_same hfill
            have hrest := ih h
            exact SameInput.trans ⟨hfilled.1, hfilled.2, hfilled.3, hfilled.4, hfilled.5⟩ hrest
        · exact (hwrite x _).trans (ih h)

/-- **Sending leaves the request alone.** -/
theorem sendReply_same {c : SimpleHTTPConn} {outs : List Pb.Conn.Sent} {x : Sending}
    {st : WriteStatus} (h : sendReply c outs = some (x, st)) : SameInput c x.conn := by
  rw [sendReply] at h
  split at h
  · simp at h
  case _ c₁ hfill =>
    obtain ⟨rfl, -⟩ := Prod.mk.inj (Option.some.inj h)
    exact fillResponseBuf_same hfill
  case _ c₁ hfill => exact (fillResponseBuf_same hfill).trans (sendLoop_same h)

section

variable {stringToLower string2l}

theorem stepOption_getRequest {w w' : World} {e : Env} :
    stepOption stringToLower string2l w (.getRequest e) = some w' ↔
      w.alive ∧ getRequest stringToLower string2l w e = w' := by
  simp only [stepOption, Option.ite_none_right_eq_some, Option.some.injEq]

/-- What an event of sending does to the rest. -/
theorem stepOption_sendReply {w w' : World} {outs : List Pb.Conn.Sent}
    (h : stepOption stringToLower string2l w (.sendReply outs) = some w') :
    w.alive = true ∧ SameInput w.conn w'.conn ∧ w'.input = w.input ∧ w'.calls = w.calls := by
  rw [stepOption] at h
  obtain ⟨⟨halive, -⟩, hmap⟩ := Option.ite_none_right_eq_some.mp h
  obtain ⟨⟨x, st⟩, hsend, rfl⟩ := Option.map_eq_some_iff.mp hmap
  have hsame := sendReply_same hsend
  exact ⟨halive, ⟨hsame.1, hsame.2, hsame.3, hsame.4, hsame.5⟩, rfl, rfl⟩

end

end Pink.Http.SimpleConn
