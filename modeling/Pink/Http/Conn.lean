import Pink.Http.Request
import Pink.Redis.Conn
import Pink.Server.Threads

/-! # An HTTP connection

`HTTPConn` with its request and its response. `ReadData` is a state machine that is resumed when
bytes arrive and calls the handlers; `Flush` is one that is resumed when bytes can be written.
A reply is either the interim reply 100 to a request with an `Expect` header, which `ReadData` orders
by itself, or the final response that the handler fills in `PrepareResponse`.

The bytes of `rbuf_` and `wbuf_` are given by the parts in use. With SSL the calls differ only in the
number of bytes asked for, as the error codes are mapped to the same three results. -/

namespace Pink.Http.Conn

open Pink.Redis.Wire Pink.Http.Request
open Pink.Redis.Conn (WriteStatus)
open Pink.Server.Threads (ReadStatus)

/-! ### The response -/

inductive ResponseStatus
  | prepareHeader | sendingHeader | sendingBody
  deriving DecidableEq, Repr

structure HTTPResponse where
  respStatus : ResponseStatus := .prepareHeader
  /-- The `buf_len_` bytes of `wbuf_` from `wbuf_pos_` on. -/
  pending : Bytes := []
  wbufPos : ℕ := 0
  remainSendLen : ℕ := 0
  finished : Bool := true
  statusCode : ℕ := 200
  headers : List (Bytes × Bytes) := []
  deriving DecidableEq, Repr

/-- `HTTPResponse::Reset`. -/
def HTTPResponse.reset (_ : HTTPResponse) : HTTPResponse := { finished := false }

/-- The condition that `SetStatusCode` asserts. -/
def goodStatus (code : ℕ) : Bool :=
  (100 ≤ code ∧ code ≤ 102) ∨ (200 ≤ code ∧ code ≤ 207) ∨ (400 ≤ code ∧ code ≤ 409) ∨ code = 416 ∨
    (500 ≤ code ∧ code ≤ 509)

/-- The calls that a handler makes on the response in `PrepareResponse`. -/
inductive Setter
  | setStatusCode (code : ℕ)
  | setHeaders (key value : Bytes)
  | setHeadersNum (key : Bytes) (value : UInt64)
  | setContentLength (size : UInt64)
  | reset
  deriving DecidableEq, Repr

/-- The response after a call; `none` when an assertion fails. -/
def HTTPResponse.set (r : HTTPResponse) : Setter → Option HTTPResponse
  | .setStatusCode code => if goodStatus code then some { r with statusCode := code } else none
  | .setHeaders key value => some { r with headers := assign r.headers key value }
  | .setHeadersNum key value =>
    some { r with headers := assign r.headers key (decimalNat value.toNat) }
  | .setContentLength size =>
    let r := { r with remainSendLen := size.toNat }
    if (lookup r.headers (bytes "Content-Length")).isSome ∨
        (lookup r.headers (bytes "content-length")).isSome then some r
    else
      some { r with
        headers := assign r.headers (bytes "Content-Length") (decimalNat size.toNat) }
  | .reset => some r.reset

/-- `http_status_map`. -/
def reasonPhrase : ℕ → Bytes
  | 100 => bytes "Continue"
  | 101 => bytes "Switching Protocols"
  | 102 => bytes "Processing"
  | 200 => bytes "OK"
  | 201 => bytes "Created"
  | 202 => bytes "Accepted"
  | 203 => bytes "Non-Authoritative Information"
  | 204 => bytes "No Content"
  | 205 => bytes "Reset Content"
  | 206 => bytes "Partial Content"
  | 207 => bytes "Multi-Status"
  | 400 => bytes "Bad Request"
  | 401 => bytes "Unauthorized"
  | 403 => bytes "Forbidden"
  | 404 => bytes "Not Found"
  | 405 => bytes "Method Not Allowed"
  | 406 => bytes "Not Acceptable"
  | 407 => bytes "Proxy Authentication Required"
  | 408 => bytes "Request Timeout"
  | 409 => bytes "Conflict"
  | 416 => bytes "Requested Range not satisfiable"
  | 500 => bytes "Internal Server Error"
  | 501 => bytes "Not Implemented"
  | 502 => bytes "Bad Gateway"
  | 503 => bytes "Service Unavailable"
  | 504 => bytes "Gateway Timeout"
  | 505 => bytes "HTTP Version Not Supported"
  | 506 => bytes "Variant Also Negotiates"
  | 507 => bytes "Insufficient Storage"
  | 508 => bytes "Bandwidth Limit Exceeded"
  | 509 => bytes "Not Extended"
  -- 402 is reserved; a code without an entry cannot be set
  | _ => []

/-- The texts that `SerializeHeader` prints one after the other. -/
def headTexts (r : HTTPResponse) : List Bytes :=
  (bytes "HTTP/1.1 " ++ decimalNat r.statusCode ++ bytes " " ++ reasonPhrase r.statusCode ++ [CR, LF])
    :: r.headers.map (fun h => cstr h.1 ++ bytes ": " ++ cstr h.2 ++ [CR, LF]) ++ [[CR, LF]]

/-- `snprintf(wbuf_ + pos, size, ...)` of a text, for a `wbuf_` of which nothing is used from `pos`
on: all of it but the last of `size` characters. -/
def snprintfAt (wbuf : Bytes) (pos size : ℕ) (text : Bytes) : Bytes :=
  wbuf ++ List.replicate (pos - wbuf.length) 0 ++ text.take (size - 1)

/-- The prints of `SerializeHeader`: the final `serial_size` with the bytes of `wbuf_`. The limit of a
print is a difference of two `uint32_t`. -/
def serialize : List Bytes → ℕ → Bytes → Option (ℕ × Bytes)
  | [], serialSize, wbuf => some (serialSize, wbuf)
  | text :: texts, serialSize, wbuf =>
    let size :=
      if serialSize ≤ kHTTPMaxHeader then kHTTPMaxHeader - serialSize
      else 2 ^ 32 - (serialSize - kHTTPMaxHeader)
    let wbuf := snprintfAt wbuf serialSize size text
    if 2 ^ 31 ≤ text.length ∨ serialSize + text.length = kHTTPMaxHeader then none
    else serialize texts (serialSize + text.length) wbuf

/-- `HTTPResponse::SerializeHeader` with the test of `Flush` behind it: the bytes to send. -/
def serializeHeader (r : HTTPResponse) : Option Bytes :=
  match serialize (headTexts r) 0 [] with
  | none => none
  | some (bufLen, wbuf) => if kHTTPMaxHeader < bufLen then none else some (wbuf.take bufLen)

/-- How a call of `write` ends, as far as the kernel decides it: with `k + 1` bytes written, if so
many were asked for. -/
inductive Written
  | wrote (k : ℕ)
  | again
  | failed
  deriving DecidableEq, Repr

/-- What is decided outside `Flush` during a call: how the write of the header and the write of a
part of the body end, and what `WriteResponseBody` fills in, `none` for a negative result. -/
structure Out where
  header : Written
  fill : Option Bytes
  body : Written
  deriving DecidableEq, Repr

/-- A call of `Flush` in progress: the response, the bytes written, and what `WriteResponseBody` has
filled in. -/
structure Flushing where
  resp : HTTPResponse
  out : Bytes := []
  filled : Bytes := []
  deriving DecidableEq, Repr

/-- What follows a part of `Flush`: the next part, or a return. -/
inductive Flushed
  | next (x : Flushing)
  | ret (x : Flushing) (ok : Bool)
  deriving DecidableEq, Repr

/-- The part of `Flush` for `kPrepareHeader`. -/
def prepareHeader (x : Flushing) : Flushed :=
  if x.resp.respStatus = .prepareHeader then
    match serializeHeader x.resp with
    | none => .ret x false
    | some head =>
      .next { x with resp := { x.resp with pending := head, respStatus := .sendingHeader } }
  else .next x

/-- The part of `Flush` for `kSendingHeader`, where there is something to send. -/
def sendHeader (x : Flushing) (w : Written) : Flushed :=
  let r := x.resp
  if r.respStatus = .sendingHeader then
    match w with
    | .again => .ret x true
    | .failed => .ret x false
    | .wrote k =>
      let n := min (k + 1) r.pending.length
      let x := { x with out := x.out ++ r.pending.take n }
      if n = r.pending.length then
        if r.statusCode = 100 then
          .ret { x with resp := { r with
            wbufPos := 0, pending := [], respStatus := .prepareHeader, finished := true } } true
        else
          .next { x with resp := { r with wbufPos := 0, pending := [], respStatus := .sendingBody } }
      else .next { x with resp := { r with wbufPos := r.wbufPos + n, pending := r.pending.drop n } }
  else .next x

/-- `WriteResponseBody` of at most `needed_size` bytes into an empty buffer; `none` when it fills in
more than there is room for. -/
def fillBody (x : Flushing) (fill : Option Bytes) : Option (Flushing × Bool) :=
  let r := x.resp
  if r.pending = [] then
    match fill with
    | none => some (x, false)
    | some bs =>
      if min (kHTTPMaxMessage - r.wbufPos) r.remainSendLen < bs.length then none
      else some ({ x with resp := { r with pending := bs }, filled := x.filled ++ bs }, true)
  else some (x, true)

/-- The write of a part of the body. -/
def sendChunk (x : Flushing) (w : Written) : Flushing × Bool :=
  let r := x.resp
  -- writing nothing returns 0
  if r.pending = [] then (x, false)
  else
    match w with
    | .again => (x, true)
    | .failed => (x, false)
    | .wrote k =>
      let n := min (k + 1) r.pending.length
      ({ x with
          resp := { r with
            wbufPos := if r.wbufPos + n = kHTTPMaxMessage then 0 else r.wbufPos + n
            pending := r.pending.drop n
            remainSendLen := subSize r.remainSendLen n }
          out := x.out ++ r.pending.take n }, true)

/-- The part of `Flush` for `kSendingBody`. -/
def sendBody (x : Flushing) (fill : Option Bytes) (w : Written) : Option (Flushing × Bool) :=
  let r := x.resp
  if r.respStatus = .sendingBody then
    if r.remainSendLen = 0 then
      some ({ x with resp := { r with finished := true, respStatus := .prepareHeader } }, true)
    else
      match fillBody x fill with
      | none => none
      | some (x, false) => some (x, false)
      | some (x, true) => some (sendChunk x w)
  else some (x, true)

/-- `HTTPResponse::Flush`; `none` when the handler overruns its buffer. -/
def flush (r : HTTPResponse) (o : Out) : Option (Flushing × Bool) :=
  match prepareHeader { resp := r } with
  | .ret x ok => some (x, ok)
  | .next x =>
    match sendHeader x o.header with
    | .ret x ok => some (x, ok)
    | .next x => sendBody x o.fill o.body

/-! ### The connection -/

/-- The calls of handlers that `ReadData` makes. -/
inductive Event
  | handleRequest
  | handleBodyData (data : Bytes)
  | prepareResponse
  | handleConnClosed
  deriving DecidableEq, Repr

/-- A connection. The calls of `ReadData` are recorded with what they return, nothing if the process
is terminated by an exception or an assertion, and the handlers they call. Of the final response in
progress are recorded: the response as the handler has prepared it, the bytes written since, and the
body that the handler has filled in. -/
structure HTTPConn where
  request : HTTPRequest := {}
  response : HTTPResponse := {}
  isReply : Bool := false
  /-- A byte was written behind the end of `rbuf_`. -/
  overflow : Bool := false
  calls : List (Option ReadStatus × List Event) := []
  prepared : HTTPResponse := {}
  out : Bytes := []
  filled : Bytes := []
  /-- What the calls of `SendReply` returned, with the status code of the reply. -/
  replies : List (WriteStatus × ℕ) := []
  deriving DecidableEq, Repr

/-- How a call of `read` ends. -/
inductive Recv
  | data (bs : Bytes)
  | again
  | closed
  deriving DecidableEq, Repr

/-- What is decided outside `ReadData` during a call: how its reads end, whether `HandleRequest` asks
for a reply, and what `PrepareResponse` does with the response. -/
structure Env where
  reads : List Recv
  needReply : Bool := false
  prepare : List Setter := []
  deriving DecidableEq, Repr

/-- A call of `ReadData` in progress. -/
structure Reading where
  request : HTTPRequest
  response : HTTPResponse
  prepared : Bool := false
  overflow : Bool := false
  events : List Event := []
  deriving DecidableEq, Repr

/-- What follows a turn of the loop of `ReadData`: the next turn, or a return, without a status when
the process is terminated. -/
inductive Turn
  | next (x : Reading)
  | ret (x : Reading) (status : Option ReadStatus)
  deriving DecidableEq, Repr

/-- The number of bytes that `DoRead` asks for. -/
def readCount (security : Bool) (r : HTTPRequest) : ℕ :=
  if security then kHTTPMaxMessage else kHTTPMaxMessage - r.rbuf.length

/-- `HTTPRequest::DoRead`; `none` when a read cannot end so: with no bytes, or with more than asked
for. Reading no bytes is like the end of the stream. -/
def doRead (security : Bool) (x : Reading) : Recv → Option (Reading × ReadStatus)
  | .again => some (x, .readHalf)
  | .closed => some (x, .readClose)
  | .data bs =>
    let r := x.request
    if bs = [] ∨ readCount security r < bs.length then none
    else
      some ({ x with
          request := { r with
            rbuf := r.rbuf ++ bs
            remainRecvLen :=
              if r.reqStatus = .bodyReceiving then subSize r.remainRecvLen bs.length
              else r.remainRecvLen }
          overflow := x.overflow || decide (kHTTPMaxMessage < r.rbuf.length + bs.length) }, .ok)

/-- What `DoRead` leaves alone. -/
structure SameCall (x x' : Reading) : Prop where
  events : x'.events = x.events
  status : x'.request.reqStatus = x.request.reqStatus
  response : x'.response = x.response
  prepared : x'.prepared = x.prepared

theorem doRead_cases {security : Bool} {x x' : Reading} {r : Recv} {st : ReadStatus}
    (h : doRead security x r = some (x', st)) :
    (r = .again ∧ x' = x ∧ st = .readHalf) ∨ (r = .closed ∧ x' = x ∧ st = .readClose) ∨
      (r ≠ .again ∧ st = .ok ∧ SameCall x x') := by
  cases r with
  | again =>
    obtain ⟨rfl, rfl⟩ := Prod.mk.inj (Option.some.inj h)
    exact .inl ⟨rfl, rfl, rfl⟩
  | closed =>
    obtain ⟨rfl, rfl⟩ := Prod.mk.inj (Option.some.inj h)
    exact .inr (.inl ⟨rfl, rfl, rfl⟩)
  | data bs =>
    dsimp only [doRead] at h
    by_cases hbs : bs = [] ∨ readCount security x.request < bs.length
    · rw [if_pos hbs] at h
      simp at h
    · rw [if_neg hbs] at h
      obtain ⟨rfl, rfl⟩ := Prod.mk.inj (Option.some.inj h)
      exact .inr (.inr ⟨by simp, rfl, rfl, rfl, rfl, rfl⟩)

variable (stringToLower : Bytes → Bytes)

def Reading.emit (x : Reading) (e : Event) : Reading := { x with events := x.events ++ [e] }

/-- The rest of `case kHeaderReceiving` after a header block has been parsed. -/
def headerParsed (x : Reading) (needReply : Bool) (headerLen : ℕ) : Turn :=
  let x := { x with request := { x.request with reqStatus := .bodyReceiving } }.emit .handleRequest
  if needReply then .next { x with request := { x.request with reqStatus := .bodyReceived } }
  else
    let rbuf := x.request.rbuf.drop headerLen
    let r : HTTPRequest := { x.request with
      rbuf := rbuf, remainRecvLen := subSize x.request.remainRecvLen rbuf.length }
    if r.reply100continue ∧ r.remainRecvLen ≠ 0 then
      .ret { x with
        request := { r with reply100continue := false }
        response := { x.response with statusCode := 100 } } (some .readAll)
    else if r.remainRecvLen = 0 then
      .next ({ x with request := { r with reqStatus := .bodyReceived } }.emit (.handleBodyData rbuf))
    else .next { x with request := r }

/-- `case kHeaderReceiving` after a read that brought bytes. -/
def headerTurn (x : Reading) (needReply : Bool) : Turn :=
  -- the terminating zero of `ParseHeader`
  let x := { x with overflow := x.overflow || decide (kHTTPMaxMessage ≤ x.request.rbuf.length) }
  match parseHeader stringToLower x.request with
  | (r, .exception) => .ret { x with request := r } none
  | (r, .malformed) => .ret ({ x with request := r }.emit .handleConnClosed) (some .readError)
  | (r, .incomplete) =>
    if kHTTPMaxHeader < r.rbuf.length then
      .ret ({ x with request := r }.emit .handleConnClosed) (some .readError)
    else .next { x with request := r }
  | (r, .header headerLen) =>
    if kHTTPMaxHeader < r.rbuf.length then
      .ret ({ x with request := r }.emit .handleConnClosed) (some .readError)
    else headerParsed { x with request := r } needReply headerLen

/-- `case kBodyReceiving` after a read that brought bytes. -/
def bodyTurn (x : Reading) : Turn :=
  let r := x.request
  let x :=
    if r.rbuf.length = kHTTPMaxMessage ∨ r.remainRecvLen = 0 then
      { x with request := { r with rbuf := [] } }.emit (.handleBodyData r.rbuf)
    else x
  if r.remainRecvLen = 0 then .next { x with request := { x.request with reqStatus := .bodyReceived } }
  else .next x

/-- The response after `PrepareResponse`. -/
def prepareResponse (r : HTTPResponse) : List Setter → Option HTTPResponse
  | [] => some r
  | s :: ss => (r.set s).bind fun r => prepareResponse r ss

/-- `case kBodyReceived`. -/
def receivedTurn (x : Reading) (prepare : List Setter) : Turn :=
  let x := { x with request := { x.request with reqStatus := .newRequest } }.emit .prepareResponse
  match prepareResponse x.response prepare with
  | none => .ret x none
  | some resp => .ret { x with response := resp, prepared := true } (some .readAll)

/-- A read in `case kHeaderReceiving` or `case kBodyReceiving`, and what `turn` makes of the bytes it
brings. A read that brings none calls `HandleConnClosed`, whatever the reason. -/
def readThen (security : Bool) (turn : Reading → Turn) (x : Reading) (r : Recv) : Option Turn :=
  match doRead security x r with
  | none => none
  | some (x, .ok) => some (turn x)
  | some (x, st) => some (.ret (x.emit .handleConnClosed) (some st))

/-- The loop of `ReadData`. The list holds the results of all reads that the call makes: there is no
result when it holds too many or too few. -/
def readLoop (security : Bool) (e : Env) : List Recv → Reading → Option (Reading × Option ReadStatus)
  | [], x =>
    match x.request.reqStatus with
    | .bodyReceived =>
      match receivedTurn x e.prepare with
      | .ret x st => some (x, st)
      | .next _ => none
    | _ => none
  | r :: rs, x =>
    let turn :=
      match x.request.reqStatus with
      | .headerReceiving =>
        readThen security (fun x => headerTurn stringToLower x e.needReply) x r
      | .bodyReceiving => readThen security bodyTurn x r
      | _ => none
    match turn with
    | none => none
    | some (.ret x st) => if rs = [] then some (x, st) else none
    | some (.next x) => readLoop security e rs x

/-- A call whose only read ends it in `case kHeaderReceiving`. -/
theorem readLoop_header_ret {stringToLower : Bytes → Bytes} {security : Bool} {e : Env}
    {x x' : Reading} {r : Recv} {st : Option ReadStatus}
    (hst : x.request.reqStatus = .headerReceiving)
    (h : readThen security (fun x => headerTurn stringToLower x e.needReply) x r =
      some (.ret x' st)) :
    readLoop stringToLower security e [r] x = some (x', st) := by
  unfold readLoop
  dsimp only
  rw [hst]
  dsimp only
  rw [h]
  exact if_pos rfl

/-- What a turn leads to: `P` between turns, `Q` when the call returns. -/
def Turn.Holds (P : Reading → Prop) (Q : Reading → Option ReadStatus → Prop) : Turn → Prop
  | .next x => P x
  | .ret x st => Q x st

section

variable {stringToLower}

/-- The connection after a scan that has made `r` of the request, with the terminating zero of
`ParseHeader`. -/
abbrev Reading.scanned (x : Reading) (r : HTTPRequest) : Reading :=
  { x with
    request := r
    overflow := x.overflow || decide (kHTTPMaxMessage ≤ x.request.rbuf.length) }

/-- **The rule for `case kHeaderReceiving`**: the call is over, or a header block that is not too long
is not complete, or it has been parsed. -/
theorem headerTurn_rule {P : Reading → Prop} {Q : Reading → Option ReadStatus → Prop} {x : Reading}
    {needReply : Bool} (hthrown : ∀ r, SameBuffer x.request r → Q (x.scanned r) none)
    (hrefused : ∀ r, SameBuffer x.request r →
      Q ((x.scanned r).emit .handleConnClosed) (some .readError))
    (hincomplete : ∀ r, SameBuffer x.request r → r.rbuf.length ≤ kHTTPMaxHeader →
      parseHeader stringToLower x.request = (r, .incomplete) → P (x.scanned r))
    (hparsed : ∀ r len, SameBuffer x.request r → r.rbuf.length ≤ kHTTPMaxHeader →
      (headerParsed (x.scanned r) needReply len).Holds P Q) :
    (headerTurn stringToLower x needReply).Holds P Q := by
  have hsame : SameBuffer x.request (parseHeader stringToLower x.request).1 := parseHeader_same _
  unfold headerTurn
  dsimp only
  rcases hp : parseHeader stringToLower x.request with ⟨r, parsed⟩
  rw [hp] at hsame
  cases parsed with
  | exception => exact hthrown r hsame
  | malformed => exact hrefused r hsame
  | incomplete =>
    dsimp only
    split_ifs with hbig
    · exact hrefused r hsame
    · exact hincomplete r hsame (not_lt.mp hbig) hp
  | header len =>
    dsimp only
    split_ifs with hbig
    · exact hrefused r hsame
    · exact hparsed r len hsame (not_lt.mp hbig)

/-- **The rule for the loop of `ReadData`**: between turns `P` holds of the results of the reads that
are still to come. -/
theorem readLoop_reads_rule {P : List Recv → Reading → Prop}
    {Q : Reading → Option ReadStatus → Prop} {security : Bool} {e : Env}
    (hheader : ∀ x r rs t, P (r :: rs) x → x.request.reqStatus = .headerReceiving →
      readThen security (fun x => headerTurn stringToLower x e.needReply) x r = some t →
      t.Holds (P rs) fun x st => rs = [] → Q x st)
    (hbody : ∀ x r rs t, P (r :: rs) x → x.request.reqStatus = .bodyReceiving →
      readThen security bodyTurn x r = some t → t.Holds (P rs) fun x st => rs = [] → Q x st)
    (hreceived : ∀ x, P [] x → x.request.reqStatus = .bodyReceived →
      (receivedTurn x e.prepare).Holds (P []) Q)
    {rs : List Recv} {x x' : Reading} {st : Option ReadStatus} (h : P rs x)
    (hl : readLoop stringToLower security e rs x = some (x', st)) : Q x' st := by
  induction rs generalizing x with
  | nil =>
    unfold readLoop at hl
    split at hl
    case _ hx =>
      have hturned := hreceived x h hx
      cases ht : receivedTurn x e.prepare with
      | next y => simp [ht] at hl
      | ret y st' =>
        rw [ht] at hl hturned
        obtain ⟨rfl, rfl⟩ := Prod.mk.inj (Option.some.inj hl)
        exact hturned
    case _ => simp at hl
  | cons r rs ih =>
    -- one turn, whichever of the two kinds it is
    have key : ∀ t : Turn, t.Holds (P rs) (fun x st => rs = [] → Q x st) →
        (match (some t : Option Turn) with
        | none => none
        | some (.ret x st) => if rs = [] then some (x, st) else none
        | some (.next x) => readLoop stringToLower security e rs x) = some (x', st) → Q x' st := by
      intro t ht hl
      cases t with
      | next y => exact ih ht hl
      | ret y st' =>
        dsimp only at hl
        split_ifs at hl with hnil
        obtain ⟨rfl, rfl⟩ := Prod.mk.inj (Option.some.inj hl)
        exact ht hnil
    unfold readLoop at hl
    dsimp only at hl
    cases hx : x.request.reqStatus with
    | newRequest => simp [hx] at hl
    | bodyReceived => simp [hx] at hl
    | headerReceiving =>
      rw [hx] at hl
      dsimp only at hl
      cases ht : readThen security (fun x => headerTurn stringToLower x e.needReply) x r with
      | none => simp [ht] at hl
      | some t =>
        rw [ht] at hl
        exact key t (hheader x r rs t h hx ht) hl
    | bodyReceiving =>
      rw [hx] at hl
      dsimp only at hl
      cases ht : readThen security bodyTurn x r with
      | none => simp [ht] at hl
      | some t =>
        rw [ht] at hl
        exact key t (hbody x r rs t h hx ht) hl

theorem Turn.Holds.imp {P P' : Reading → Prop} {Q Q' : Reading → Option ReadStatus → Prop}
    {t : Turn} (h : t.Holds P Q) (hP : ∀ x, P x → P' x) (hQ : ∀ x st, Q x st → Q' x st) :
    t.Holds P' Q' := by
  cases t with
  | next x => exact hP x h
  | ret x st => exact hQ x st h

/-- The rule when what holds between turns does not depend on the reads to come, of which only the
results of `A` are known. -/
theorem readLoop_rule {P : Reading → Prop} {Q : Reading → Option ReadStatus → Prop}
    {A : Recv → Prop} {security : Bool} {e : Env}
    (hheader : ∀ x r t, A r → P x → x.request.reqStatus = .headerReceiving →
      readThen security (fun x => headerTurn stringToLower x e.needReply) x r = some t →
      t.Holds P Q)
    (hbody : ∀ x r t, A r → P x → x.request.reqStatus = .bodyReceiving →
      readThen security bodyTurn x r = some t → t.Holds P Q)
    (hreceived : ∀ x, P x → x.request.reqStatus = .bodyReceived →
      (receivedTurn x e.prepare).Holds P Q)
    {rs : List Recv} (hrs : ∀ r ∈ rs, A r) {x x' : Reading} {st : Option ReadStatus} (h : P x)
    (hl : readLoop stringToLower security e rs x = some (x', st)) : Q x' st := by
  have hturn : ∀ (r : Recv) (rs : List Recv) (t : Turn), (∀ a ∈ r :: rs, A a) → t.Holds P Q →
      t.Holds (fun x => (∀ a ∈ rs, A a) ∧ P x) fun x st => rs = [] → Q x st :=
    fun r rs t hrs ht => ht.imp
      (fun _ hx => ⟨fun a ha => hrs a (List.mem_cons_of_mem _ ha), hx⟩) fun _ _ hx _ => hx
  refine readLoop_reads_rule (P := fun rs x => (∀ a ∈ rs, A a) ∧ P x) ?_ ?_ ?_ ⟨hrs, h⟩ hl
  · intro x r rs t hx hst ht
    exact hturn r rs t hx.1 (hheader x r t (hx.1 r List.mem_cons_self) hx.2 hst ht)
  · intro x r rs t hx hst ht
    exact hturn r rs t hx.1 (hbody x r t (hx.1 r List.mem_cons_self) hx.2 hst ht)
  · intro x hx hst
    exact (hreceived x hx.2 hst).imp (fun _ hx => ⟨by simp, hx⟩) fun _ _ hx => hx

end

/-- `HTTPRequest::ReadData`. -/
def readData (security : Bool) (c : HTTPConn) (e : Env) : Option (Reading × Option ReadStatus) :=
  let x : Reading := { request := c.request, response := c.response, overflow := c.overflow }
  if c.request.reqStatus = .newRequest then
    let x := { x with request := c.request.reset }
    if c.response.finished then
      readLoop stringToLower security e e.reads { x with
        request := { x.request with reqStatus := .headerReceiving }
        response := c.response.reset }
    else if e.reads = [] then some (x, some .readHalf)
    else none
  else readLoop stringToLower security e e.reads x

/-- `HTTPConn::GetRequest`. -/
def getRequest (security : Bool) (c : HTTPConn) (e : Env) : Option HTTPConn :=
  (readData stringToLower security c e).map fun (x, st) =>
    let c := { c with
      request := x.request, response := x.response, overflow := x.overflow
      isReply := c.isReply || decide (st = some .readAll)
      calls := c.calls ++ [(st, x.events)] }
    if x.prepared then { c with prepared := x.response, out := [], filled := [] } else c

/-- `HTTPConn::SendReply`, and `set_is_reply(false)` of the event loop after `kWriteAll`. -/
def sendReply (c : HTTPConn) (o : Out) : Option HTTPConn :=
  (flush c.response o).map fun (x, ok) =>
    let st : WriteStatus :=
      if ok then (if x.resp.finished then .writeAll else .writeHalf) else .writeError
    { c with
      response := x.resp
      out := c.out ++ x.out
      filled := c.filled ++ x.filled
      isReply := c.isReply && decide (st ≠ .writeAll)
      replies := c.replies ++ [(st, c.response.statusCode)] }

inductive Op
  | getRequest (e : Env)
  | sendReply (o : Out)
  deriving DecidableEq, Repr

/-- A status on which the event loop goes on with the connection. -/
def goesOn (st : Option ReadStatus) : Bool := st = some .readAll ∨ st = some .readHalf

/-- The connection has not been closed: every call so far returned a status to go on with. -/
def HTTPConn.alive (c : HTTPConn) : Bool :=
  c.calls.all (fun x => goesOn x.1) && c.replies.all (fun x => x.1 ≠ .writeError)

/-- One event of the loop, which sends only when there is a reply; `none` when it cannot happen. -/
def stepOption (security : Bool) (c : HTTPConn) : Op → Option HTTPConn
  | .getRequest e => if c.alive then getRequest stringToLower security c e else none
  | .sendReply o => if c.alive ∧ c.isReply then sendReply c o else none

/-- An event that cannot happen changes nothing. -/
def step (security : Bool) (c : HTTPConn) (op : Op) : HTTPConn :=
  (stepOption stringToLower security c op).getD c

variable {stringToLower}

theorem stepOption_getRequest {security : Bool} {c c' : HTTPConn} {e : Env} :
    stepOption stringToLower security c (.getRequest e) = some c' ↔
      c.alive ∧ getRequest stringToLower security c e = some c' := by
  simp only [stepOption, Option.ite_none_right_eq_some]

theorem stepOption_sendReply {security : Bool} {c c' : HTTPConn} {o : Out} :
    stepOption stringToLower security c (.sendReply o) = some c' ↔
      (c.alive ∧ c.isReply) ∧ sendReply c o = some c' := by
  simp only [stepOption, Option.ite_none_right_eq_some]

/-- On a connection the loop has not closed, no call has failed. -/
theorem HTTPConn.goesOn_of_alive {c : HTTPConn} (h : c.alive)
    {call : Option ReadStatus × List Event} (hcall : call ∈ c.calls) : goesOn call.1 := by
  simp only [HTTPConn.alive, Bool.and_eq_true, List.all_eq_true] at h
  exact h.1 call hcall

end Pink.Http.Conn
