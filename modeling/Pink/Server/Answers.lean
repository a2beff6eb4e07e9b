import Pink.Redis.Dealt
import Pink.Server.Threads

/-! # Requests and replies of a holy thread

A `RedisConn` with `kSynchronous` in a `HolyThread` without `async_`: `GetRequest` passes every
command to `DealMessage`, which answers with `WriteResp`, and as soon as there is a reply the thread
stops watching for requests until `SendReply` has sent all of it. A response that comes while an
array of buffers is in use would be dropped; here none comes, and so every command that has arrived
is answered once and in order, and `EPOLLOUT` is watched exactly as long as there is something to
send (`answered_exact`).

`DealMessage` is the program's: what it answers is a function of the commands so far. -/

namespace Pink.Server.Answers

open Pink.Redis.Wire Pink.Redis.Parser Pink.Redis.Fragment Pink.Redis.Format Pink.Redis.Pieces
open Pink.Redis.Callbacks Pink.Redis.Dealt Pink.Lib.Runs Pink.Server.Threads
open Pink.Redis.Reading (ReadResult Stuck Possible accepted REDIS_MAX_MESSAGE)
open Pink.Redis.Served (Open ByLoop)
open Pink.Redis.Conn (WriteStatus Writev pending)
open Pink.Redis.Conn.RedisConn (writeResp)

/-- What `DealMessage` passes to `WriteResp` for the commands `cmds` behind the commands
`before`. -/
def answers (answer : List Argv → Argv → Option Bytes) : List Argv → List Argv → List Bytes
  | _, [] => []
  | before, c :: cmds => (answer before c).toList ++ answers answer (before ++ [c]) cmds

/-- A connection of a holy thread: what it reads, what it writes, and the events that epoll
watches. -/
structure HolyConn where
  reader : Redis.Reading.RedisConn
  writer : Redis.Conn.RedisConn := {}
  interest : Mask := { epollin := true }
  closed : Bool := false

namespace HolyConn

/-- The call reaches the end of `GetRequest`, behind `ProcessInputBuffer`. -/
def parses (c : Redis.Reading.RedisConn) (alloc : Bool) : ReadResult → Bool
  | .data b => (c.grow alloc).isSome &&
      decide (Redis.Reading.toInt (c.commandLen + b.length) < c.rbufMaxLen)
  | _ => false

section Handler
variable (string2l : Bytes → ℕ → Option ℤ) (answer : List Argv → Argv → Option Bytes)

/-- `GetRequest`, with the responses to the commands that the parser delivers. -/
def getRequest (s : HolyConn) (alloc : Bool) (r : ReadResult) : HolyConn :=
  let reader := Redis.Reading.step string2l s.reader (.getRequest alloc r)
  let before := dealt s.reader.redisParser.log
  let cmds := (dealt reader.redisParser.log).drop before.length
  let writer := (answers answer before cmds).foldl writeResp s.writer
  { s with
    reader := reader
    writer :=
      if parses s.reader alloc r && writer.response ≠ [] then { writer with isReply := true }
      else writer }

/-- The request part of an event: `should_close` behind it, or `none` if the event is over. -/
def request (s : HolyConn) (mask : Mask) (alloc : Bool) (r : ReadResult) :
    HolyConn × Option Bool :=
  if mask.epollin then
    let s := s.getRequest string2l answer alloc r
    if s.reader.status ≠ some .readAll ∧ s.reader.status ≠ some .readHalf then (s, some true)
    else if s.writer.isReply then ({ s with interest := { epollout := true } }, some false)
    else (s, none)
  else (s, some false)

/-- The reply part of an event. -/
def reply (s : HolyConn) (mask : Mask) (ws : List Writev) (shouldClose : Bool) :
    HolyConn × Option Bool :=
  if mask.epollout then
    let x := s.writer.sendReply ws
    match x.2 with
    | .writeAll => ({ s with writer := { x.1 with isReply := false },
                             interest := { epollin := true } }, some shouldClose)
    | .writeHalf => ({ s with writer := x.1 }, none)
    | .writeError => ({ s with writer := x.1 }, some true)
  else (s, some shouldClose)

/-- The end of an event. -/
def finish (mask : Mask) : HolyConn × Option Bool → HolyConn
  | (s, none) => s
  | (s, some shouldClose) =>
    { s with closed := mask.epollerr || mask.epollhup || shouldClose }

def handleConnEvent (s : HolyConn) (mask : Mask) (alloc : Bool) (r : ReadResult)
    (ws : List Writev) : HolyConn :=
  match s.request string2l answer mask alloc r with
  | (s, none) => s
  | (s, some shouldClose) => finish mask (s.reply mask ws shouldClose)

end Handler

end HolyConn

/-! ### Runs -/

inductive Op
  /-- A readiness event, with what `realloc`, `read` and `easy_writev` do. -/
  | event (mask : Mask) (alloc : Bool) (r : ReadResult) (ws : List Writev)
  /-- A cron tick that keeps the connection. -/
  | tryResizeBuffer (idletime : ℤ)
  /-- A kill, a time-out or `Cleanup`. -/
  | close
  deriving DecidableEq, Repr

section Runs
variable (string2l : Bytes → ℕ → Option ℤ) (answer : List Argv → Argv → Option Bytes)

def step (s : HolyConn) (op : Op) : HolyConn :=
  if s.closed then s
  else
    match op with
    | .event mask alloc r ws => s.handleConnEvent string2l answer mask alloc r ws
    | .tryResizeBuffer idletime =>
      { s with reader := Redis.Reading.step string2l s.reader (.tryResizeBuffer idletime) }
    | .close => { s with closed := true }

end Runs

/-- A connection that `HandleNewConn` has just put in `conns_`. -/
def entered (max : ℤ) : HolyConn := { reader := accepted max okSettings }

/-- epoll reports only the events that it watches, and errors. -/
def Fires (s : HolyConn) : Op → Prop
  | .event mask alloc r _ => s.closed = false ∧ (mask.epollout → s.interest.epollout) ∧
      (mask.epollin → s.interest.epollin ∧ Possible s.reader (.getRequest alloc r))
  | _ => True

instance (s : HolyConn) : ∀ op, Decidable (Fires s op)
  | .event _ _ _ _ => inferInstanceAs (Decidable (_ ∧ _ ∧ _))
  | .tryResizeBuffer _ => .isTrue trivial
  | .close => .isTrue trivial

/-- The bytes that arrive in a step. -/
def arriving : Op → Bytes
  | .event mask _ (.data b) _ => if mask.epollin then b else []
  | _ => []

/-! ### The replies -/

section Replies
variable {answer : List Argv → Argv → Option Bytes}

theorem answers_append : ∀ (before cmds cmds' : List Argv), answers answer before (cmds ++ cmds') =
    answers answer before cmds ++ answers answer (before ++ cmds) cmds'
  | before, [], cmds' => by rw [answers, List.nil_append, List.nil_append, List.append_nil]
  | before, c :: cmds, cmds' => by
    rw [List.cons_append, answers, answers, answers_append (before ++ [c]) cmds cmds',
      List.append_assoc, List.append_assoc]
    rfl

/-- There is at most one response to a command. -/
theorem length_answers : ∀ (before cmds : List Argv),
    (answers answer before cmds).length ≤ cmds.length
  | _, [] => le_rfl
  | before, c :: cmds => by
    have ih := length_answers (before ++ [c]) cmds
    rw [answers, List.length_append, List.length_cons]
    have hone : (answer before c).toList.length ≤ 1 := by
      rcases answer before c with _ | r
      · exact Nat.zero_le _
      · exact le_rfl
    omega

theorem answers_ne_nil (h : ∀ before c, answer before c ≠ some []) : ∀ (before cmds : List Argv),
    ∀ r ∈ answers answer before cmds, r ≠ []
  | _, [], r, hr => absurd hr List.not_mem_nil
  | before, c :: cmds, r, hr => by
    rw [answers, List.mem_append] at hr
    rcases hr with hr | hr
    · rintro rfl
      exact h before c (by simpa using hr)
    · exact answers_ne_nil h (before ++ [c]) cmds r hr

end Replies

/-! ### The writer -/

section Writer
open Pink.Redis.Conn

variable {c : Redis.Conn.RedisConn}

theorem writeResp_inv (h : Redis.Conn.Inv c) (hidle : c.iovIdx < 0) (resp : Bytes) :
    Redis.Conn.Inv (c.writeResp resp) := by
  have hsound : Sound { c with last := none } :=
    ⟨⟨h.fault, h.idle, h.shape, h.dangling, h.balance⟩, fun hl => by cases hl⟩
  exact (writeResp_sound hsound hidle resp).toInv

/-- Responses are added while no array is in use. -/
theorem foldl_writeResp : ∀ (resps : List Bytes) {c : Redis.Conn.RedisConn}, Redis.Conn.Inv c →
    c.iovIdx < 0 → Redis.Conn.Inv (resps.foldl writeResp c) ∧
      (resps.foldl writeResp c).response = c.response ++ resps ∧
      (resps.foldl writeResp c).accepted = c.accepted ++ resps ∧
      (resps.foldl writeResp c).iovIdx = c.iovIdx ∧
      (resps.foldl writeResp c).isReply = (c.isReply || decide (resps ≠ [])) := by
  intro resps
  induction resps with
  | nil => exact fun h _ => ⟨h, by simp, by simp, rfl, by simp⟩
  | cons r resps ih =>
    intro c h hidle
    obtain ⟨h1, h2, h3, h4, h5⟩ := ih (writeResp_inv h hidle r) hidle
    refine ⟨h1, ?_, ?_, h4, ?_⟩
    · rw [List.foldl_cons, h2]
      simp [writeResp]
    · rw [List.foldl_cons, h3]
      simp [writeResp]
    · rw [List.foldl_cons, h5]
      simp [writeResp]

/-- Bytes are left as long as the last buffer is not used up. -/
theorem iovBytes_ne_nil {iov : List Iovec} (h : iov ≠ [])
    (hl : iov.getLast?.map Iovec.bytes ≠ some []) : RedisConn.iovBytes iov ≠ [] := by
  intro hnil
  rw [RedisConn.iovBytes, List.flatMap_eq_nil_iff] at hnil
  refine hl ?_
  rw [List.getLast?_eq_some_getLast h, Option.map_some, hnil _ (List.getLast_mem h)]

/-- What a call of `SendReply` leaves behind: nothing, or the responses and something to send. -/
structure Leaves (c : Redis.Conn.RedisConn) (x : Redis.Conn.RedisConn × WriteStatus) : Prop where
  all : x.2 = .writeAll → x.1.response = [] ∧ x.1.iovIdx < 0
  part : x.2 ≠ .writeAll → x.1.response = c.response ∧
    (0 ≤ x.1.iovIdx → RedisConn.iovBytes x.1.iov ≠ [])
  isReply : x.1.isReply = c.isReply

theorem halfOrError_leaves (hne : RedisConn.iovBytes c.iov ≠ []) (r : ℤ) (e : Errno) :
    Leaves c (c.halfOrError r e) := by
  have hpart : ∀ {k : ℤ} {w : WriteStatus}, w ≠ .writeAll →
      Leaves c ({ c with numRetry := k }, w) :=
    fun hw => ⟨fun h => absurd h hw, fun _ => ⟨rfl, fun _ => hne⟩, rfl⟩
  unfold RedisConn.halfOrError
  by_cases hr : r = -1
  · rw [if_pos hr]
    rcases e with _ | _ | _ <;> dsimp only
    · exact hpart (by simp)
    · split
      · exact hpart (by simp)
      · exact hpart (by simp)
    · exact hpart (by simp)
  · rw [if_neg hr]
    exact hpart (by simp)

theorem writeLoop_leaves : ∀ (ws : List Writev) {c : Redis.Conn.RedisConn}, Busy c →
    RedisConn.iovBytes c.iov ≠ [] → Leaves c (RedisConn.writeLoop ws c)
  | [], c, _, hne => halfOrError_leaves hne _ _
  | w :: ws, c, h, hne => by
    have hkept : (c.easyWritev w.sent).response = c.response ∧
        (c.easyWritev w.sent).isReply = c.isReply := by
      unfold RedisConn.easyWritev
      split_ifs <;> exact ⟨rfl, rfl⟩
    obtain ⟨hresp, hreply⟩ := hkept
    obtain ⟨hb, -⟩ := easyWritev_busy h w.sent
    rw [RedisConn.writeLoop, if_neg (by simp [hb.fault])]
    split_ifs with hl hr
    · exact ⟨fun _ => ⟨rfl, by simp⟩, fun hx => absurd rfl hx, hreply⟩
    · obtain ⟨h1, h2, h3⟩ := writeLoop_leaves ws hb (iovBytes_ne_nil (hb.shape hb.busy).2.1 hl)
      rw [hresp] at h2
      exact ⟨h1, h2, h3.trans hreply⟩
    · obtain ⟨h1, h2, h3⟩ := halfOrError_leaves
        (iovBytes_ne_nil (hb.shape hb.busy).2.1 hl) w.ret w.errno
      rw [hresp] at h2
      exact ⟨h1, h2, h3.trans hreply⟩

/-- Responses that are to be sent, none of them empty. -/
structure Loaded (c : Redis.Conn.RedisConn) : Prop where
  response : c.response ≠ []
  nonempty : ∀ r ∈ c.response, r ≠ []
  length : c.response.length < 2 ^ 31
  busy : 0 ≤ c.iovIdx → RedisConn.iovBytes c.iov ≠ []

theorem Loaded.flatten_ne_nil (h : Loaded c) : c.response.flatten ≠ [] := by
  obtain ⟨r, rs, hr⟩ := List.exists_cons_of_ne_nil h.response
  have := h.nonempty r (by simp [hr])
  simp [hr, this]

theorem Loaded.pending_ne_nil (h : Loaded c) : pending c ≠ [] := by
  unfold pending
  split_ifs with hidle
  · exact h.flatten_ne_nil
  · exact h.busy (not_lt.mp hidle)

/-- `SendReply` builds the array, or goes on with the one that is in use. -/
theorem Loaded.begins (h : Loaded c) (hinv : Redis.Conn.Inv c) (ws : List Writev) :
    ∃ c' : Redis.Conn.RedisConn, Busy c' ∧ RedisConn.iovBytes c'.iov ≠ [] ∧ c'.sent = c.sent ∧
      c'.response = c.response ∧ c'.isReply = c.isReply ∧
      c.sendReply ws = RedisConn.writeLoop ws c' := by
  have hnum : toInt32 c.response.length = c.response.length := toInt32_of_lt h.length
  have hpos := List.length_pos_iff.mpr h.response
  unfold RedisConn.sendReply
  rw [hnum]
  dsimp only
  rw [if_neg (by omega)]
  by_cases hidle : c.iovIdx < 0
  swap
  · rw [if_neg hidle]
    exact ⟨c, ⟨hinv, not_lt.mp hidle⟩, h.busy (not_lt.mp hidle), rfl, rfl, rfl, rfl⟩
  have hbytes : RedisConn.iovBytes (RedisConn.buildIov c.response) ≠ [] := by
    rw [iovBytes_buildIov]
    exact h.flatten_ne_nil
  have hiov : RedisConn.buildIov c.response ≠ [] := fun hnil => hbytes (by rw [hnil]; rfl)
  have hbal := hinv.balance
  rw [pending, if_pos hidle] at hbal
  rw [if_pos hidle, if_neg (by omega), Int.toNat_natCast, List.take_length, if_neg hiov]
  refine ⟨{ c with iov := RedisConn.buildIov c.response, iovIdx := 0 }, ⟨⟨hinv.fault,
    fun hi => absurd hi (by simp), fun _ => ⟨buildIov_shape _, hiov, h.response⟩, ?_, ?_⟩, le_rfl⟩,
    hbytes, rfl, rfl, rfl, rfl⟩
  · intro v hv
    simp only [RedisConn.buildIov, List.mem_map] at hv
    obtain ⟨r, -, rfl⟩ := hv
    rfl
  · rw [pending, if_neg (by simp)]
    simpa [iovBytes_buildIov] using hbal

theorem sendReply_leaves (hinv : Redis.Conn.Inv c) (h : Loaded c) (ws : List Writev) :
    Leaves c (c.sendReply ws) := by
  obtain ⟨c', hbusy, hbytes, -, hresp, hreply, hsend⟩ := h.begins hinv ws
  obtain ⟨h1, h2, h3⟩ := writeLoop_leaves ws hbusy hbytes
  rw [hresp] at h2
  rw [hsend]
  exact ⟨h1, h2, h3.trans hreply⟩

end Writer

/-! ### The invariant -/

section Inv
variable {string2l : Bytes → ℕ → Option ℤ} {answer : List Argv → Argv → Option Bytes}
  {all : List Argv} {s : HolyConn} {t : Bytes}

/-- The thread waits for requests, and nothing is left to be sent. -/
structure Waiting (s : HolyConn) : Prop where
  interest : s.interest = { epollin := true }
  isReply : s.writer.isReply = false
  response : s.writer.response = []
  idle : s.writer.iovIdx < 0

/-- The thread waits until it can send the replies. -/
structure Replying (s : HolyConn) : Prop where
  interest : s.interest = { epollout := true }
  loaded : Loaded s.writer

/-- What holds of the reader and the writer, also when the connection is closed: every command that
was dealt with has been answered. -/
structure Account (string2l : Bytes → ℕ → Option ℤ) (answer : List Argv → Argv → Option Bytes)
    (all : List Argv) (s : HolyConn) (t : Bytes) : Prop where
  deals : Deals string2l all s.reader t
  writer : Redis.Conn.Inv s.writer
  accepted : s.writer.accepted = answers answer [] (dealt s.reader.redisParser.log)

/-- The account is kept, and an open connection waits for requests or for room to send. -/
structure Inv (string2l : Bytes → ℕ → Option ℤ) (answer : List Argv → Argv → Option Bytes)
    (all : List Argv) (s : HolyConn) (t : Bytes) : Prop extends
    Account string2l answer all s t where
  serving : s.closed = false → Open s.reader ∧ (Waiting s ∨ Replying s)

theorem Account.congr {s' : HolyConn} (h : Account string2l answer all s t)
    (hr : s'.reader = s.reader) (hw : s'.writer = s.writer) : Account string2l answer all s' t :=
  ⟨by rw [hr]; exact h.deals, by rw [hw]; exact h.writer, by rw [hr, hw]; exact h.accepted⟩

theorem Waiting.pending (h : Waiting s) : pending s.writer = [] := by
  rw [Redis.Conn.pending, if_pos h.idle, h.response]
  rfl

/-- What `GetRequest` leaves behind: no reply, or some that `SendReply` has not begun with. -/
structure Gets (string2l : Bytes → ℕ → Option ℤ) (answer : List Argv → Argv → Option Bytes)
    (all : List Argv) (s s' : HolyConn) (t : Bytes) : Prop extends
    Account string2l answer all s' t where
  closed : s'.closed = s.closed
  interest : s'.interest = s.interest
  idle : s'.writer.iovIdx < 0
  silent : s'.writer.isReply = false → s'.writer.response = []
  loaded : s'.writer.isReply = true → Loaded s'.writer

/-- **The requests of an event are answered.** -/
theorem Inv.getRequest (hs : String2lSpec string2l) (hall : ∀ c ∈ all, Short (2 ^ 31) c)
    (hanswer : ∀ before c, answer before c ≠ some []) {alloc : Bool} {r : ReadResult}
    (h : Inv string2l answer all s t) (hc : s.closed = false) (hwait : Waiting s)
    (hp : Possible s.reader (.getRequest alloc r))
    (ht : t ++ Redis.Pipeline.arriving (.getRequest alloc r) <+: stream all) :
    Gets string2l answer all s (s.getRequest string2l answer alloc r)
      (t ++ Redis.Pipeline.arriving (.getRequest alloc r)) := by
  have hopen : ByLoop s.reader (.getRequest alloc r) := (h.serving hc).1
  obtain ⟨em, hem, hlen⟩ := (h.deals.delivers hp hopen hs hall ht).dealt
  have hdeals := h.deals.step hs hall hp hopen ht
  obtain ⟨h1, h2, h3, h4, h5⟩ := foldl_writeResp
    (answers answer (dealt s.reader.redisParser.log) em) h.writer hwait.idle
  rw [hwait.response, List.nil_append] at h2
  rw [hwait.isReply, Bool.false_or] at h5
  unfold HolyConn.getRequest
  dsimp only
  rw [hem, List.drop_left' rfl]
  -- `set_is_reply` behind the parser changes nothing
  have hset : ∀ {b : Bool} {w : Redis.Conn.RedisConn}, (w.isReply = decide (w.response ≠ [])) →
      (if b && w.response ≠ [] then { w with isReply := true } else w) = w := by
    intro b w hw
    split_ifs with hif
    · rw [Bool.and_eq_true] at hif
      have hne : w.response ≠ [] := of_decide_eq_true hif.2
      rw [decide_eq_true hne] at hw
      rw [← hw]
    · rfl
  rw [hset (by rw [h5, h2])]
  refine ⟨⟨hdeals, h1, ?_⟩, rfl, rfl, ?_, fun hf => ?_, fun hr => ?_⟩
  · rw [h3, h.accepted, hem, answers_append]
    rfl
  · rw [h4]
    exact hwait.idle
  · rw [h5] at hf
    rw [h2]
    simpa using hf
  · rw [h5] at hr
    have hne : answers answer (dealt s.reader.redisParser.log) em ≠ [] := of_decide_eq_true hr
    refine ⟨by rw [h2]; exact hne, fun r hr => ?_, ?_, fun hbusy => ?_⟩
    · rw [h2] at hr
      exact answers_ne_nil hanswer _ _ r hr
    · rw [h2]
      exact lt_of_le_of_lt (length_answers _ _) hlen
    · rw [h4] at hbusy
      exact absurd hwait.idle (not_lt.mpr hbusy)

/-! ### Events -/

theorem handleConnEvent_some {s' : HolyConn} {mask : Mask} {alloc : Bool} {r : ReadResult}
    {ws : List Writev} {b : Bool}
    (h : s.request string2l answer mask alloc r = (s', some b)) :
    s.handleConnEvent string2l answer mask alloc r ws =
      HolyConn.finish mask (s'.reply mask ws b) := by
  rw [HolyConn.handleConnEvent, h]

theorem handleConnEvent_none {s' : HolyConn} {mask : Mask} {alloc : Bool} {r : ReadResult}
    {ws : List Writev} (h : s.request string2l answer mask alloc r = (s', none)) :
    s.handleConnEvent string2l answer mask alloc r ws = s' := by
  rw [HolyConn.handleConnEvent, h]

theorem request_of_not_in {mask : Mask} {alloc : Bool} {r : ReadResult} (h : mask.epollin = false) :
    s.request string2l answer mask alloc r = (s, some false) := by
  rw [HolyConn.request, if_neg (by simp [h])]

theorem reply_of_not_out {mask : Mask} {ws : List Writev} {b : Bool} (h : mask.epollout = false) :
    s.reply mask ws b = (s, some b) := by
  rw [HolyConn.reply, if_neg (by simp [h])]

/-- The end of an event that goes through. -/
theorem inv_finish {mask : Mask} {b : Bool} (h : Account string2l answer all s t)
    (hserving : b = false → Open s.reader ∧ (Waiting s ∨ Replying s)) :
    Inv string2l answer all (HolyConn.finish mask (s, some b)) t := by
  refine ⟨h.congr rfl rfl, fun hc => ?_⟩
  have hb : b = false := by
    have hc' : (mask.epollerr || mask.epollhup || b) = false := hc
    rw [Bool.or_eq_false_iff] at hc'
    exact hc'.2
  obtain ⟨ho, ⟨h1, h2, h3, h4⟩ | ⟨h1, h2⟩⟩ := hserving hb
  · exact ⟨ho, .inl ⟨h1, h2, h3, h4⟩⟩
  · exact ⟨ho, .inr ⟨h1, h2⟩⟩

/-- **An event while the thread waits for requests.** -/
theorem Inv.event_waiting (hs : String2lSpec string2l) (hall : ∀ c ∈ all, Short (2 ^ 31) c)
    (hanswer : ∀ before c, answer before c ≠ some []) {mask : Mask} {alloc : Bool} {r : ReadResult}
    {ws : List Writev} (h : Inv string2l answer all s t) (hwait : Waiting s)
    (hf : Fires s (.event mask alloc r ws))
    (ht : t ++ arriving (.event mask alloc r ws) <+: stream all) :
    Inv string2l answer all (s.handleConnEvent string2l answer mask alloc r ws)
      (t ++ arriving (.event mask alloc r ws)) := by
  obtain ⟨hc, hout, hin⟩ := hf
  have hnout : mask.epollout = false := by
    rw [hwait.interest] at hout
    simpa using hout
  by_cases hm : mask.epollin = true
  swap
  · have harr : arriving (.event mask alloc r ws) = [] := by
      rcases r with b | _ | _ | _ <;> simp [arriving, hm]
    rw [harr, List.append_nil, handleConnEvent_some (request_of_not_in (by simpa using hm)),
      reply_of_not_out hnout]
    exact inv_finish h.toAccount fun _ => h.serving hc
  have harr : arriving (.event mask alloc r ws) =
      Redis.Pipeline.arriving (.getRequest alloc r) := by
    rcases r with b | _ | _ | _ <;> simp [arriving, Redis.Pipeline.arriving, hm]
  rw [harr] at ht ⊢
  have hgets := h.getRequest hs hall hanswer hc hwait (hin hm).2 ht
  have hrequest : s.request string2l answer mask alloc r =
      let s' := s.getRequest string2l answer alloc r
      if s'.reader.status ≠ some .readAll ∧ s'.reader.status ≠ some .readHalf then (s', some true)
      else if s'.writer.isReply then ({ s' with interest := { epollout := true } }, some false)
      else (s', none) := by
    rw [HolyConn.request, if_pos hm]
  generalize s.getRequest string2l answer alloc r = s' at hgets hrequest
  obtain ⟨haccount, hclosed, hinterest, hidle, hsilent, hloaded⟩ := hgets
  dsimp only at hrequest
  by_cases hst : s'.reader.status ≠ some .readAll ∧ s'.reader.status ≠ some .readHalf
  · rw [if_pos hst] at hrequest
    rw [handleConnEvent_some hrequest, reply_of_not_out hnout]
    exact inv_finish haccount fun hb => absurd hb (by simp)
  have hopen : Open s'.reader := by
    unfold Open
    tauto
  rw [if_neg hst] at hrequest
  by_cases hr : s'.writer.isReply = true
  · rw [if_pos hr] at hrequest
    rw [handleConnEvent_some hrequest, reply_of_not_out hnout]
    exact inv_finish (haccount.congr rfl rfl) fun _ => ⟨hopen, .inr ⟨rfl, hloaded hr⟩⟩
  · rw [if_neg hr] at hrequest
    rw [Bool.not_eq_true] at hr
    rw [handleConnEvent_none hrequest]
    exact ⟨haccount, fun _ => ⟨hopen, .inl ⟨hinterest.trans hwait.interest, hr, hsilent hr, hidle⟩⟩⟩

/-- **An event while there is something to send.** -/
theorem Inv.event_replying {mask : Mask} {alloc : Bool} {r : ReadResult} {ws : List Writev}
    (h : Inv string2l answer all s t) (hreply : Replying s)
    (hf : Fires s (.event mask alloc r ws)) :
    Inv string2l answer all (s.handleConnEvent string2l answer mask alloc r ws)
      (t ++ arriving (.event mask alloc r ws)) := by
  obtain ⟨hc, -, hin⟩ := hf
  have hm : ¬mask.epollin = true := fun hm => by
    have := (hin hm).1
    rw [hreply.interest] at this
    cases this
  have harr : arriving (.event mask alloc r ws) = [] := by
    rcases r with b | _ | _ | _ <;> simp [arriving, hm]
  obtain ⟨hopen, -⟩ := h.serving hc
  obtain ⟨hinv, hacc, -⟩ := Redis.Conn.sendReply_sends h.writer hreply.loaded.length ws
  obtain ⟨hall, hpart, -⟩ := sendReply_leaves h.writer hreply.loaded ws
  rw [harr, List.append_nil, handleConnEvent_some (request_of_not_in (by simpa using hm))]
  by_cases hout : mask.epollout = true
  swap
  · rw [reply_of_not_out (by simpa using hout)]
    exact inv_finish h.toAccount fun _ => h.serving hc
  have haccount : ∀ {s' : HolyConn}, s'.reader = s.reader → Redis.Conn.Inv s'.writer →
      s'.writer.accepted = (s.writer.sendReply ws).1.accepted →
      Account string2l answer all s' t :=
    fun hr hw ha => ⟨by rw [hr]; exact h.deals, hw, by rw [ha, hacc, hr]; exact h.accepted⟩
  obtain ⟨x, hsend⟩ : ∃ x, s.writer.sendReply ws = x := ⟨_, rfl⟩
  have hrep : s.reply mask ws false = match x.2 with
      | .writeAll => ({ s with writer := { x.1 with isReply := false },
                               interest := { epollin := true } }, some false)
      | .writeHalf => ({ s with writer := x.1 }, none)
      | .writeError => ({ s with writer := x.1 }, some true) := by
    rw [HolyConn.reply, if_pos hout, hsend]
  rw [hsend] at hinv hacc hall hpart haccount
  rcases hx : x.2 with _ | _ | _ <;> rw [hx] at hall hpart hrep <;> dsimp only at hrep <;> rw [hrep]
  · obtain ⟨hresp, hidle⟩ := hall rfl
    have hinv' : Redis.Conn.Inv { x.1 with isReply := false } :=
      ⟨hinv.fault, hinv.idle, hinv.shape, hinv.dangling, hinv.balance⟩
    exact inv_finish (haccount rfl hinv' rfl) fun _ => ⟨hopen, .inl ⟨rfl, rfl, hresp, hidle⟩⟩
  · obtain ⟨hresp, hbusy⟩ := hpart (by simp)
    obtain ⟨h1, h2, h3, -⟩ := hreply.loaded
    rw [← hresp] at h1 h2 h3
    exact ⟨haccount rfl hinv rfl, fun _ => ⟨hopen, .inr ⟨hreply.interest, h1, h2, h3, hbusy⟩⟩⟩
  · exact inv_finish (haccount rfl hinv rfl) fun hb => absurd hb (by simp)

/-- A cron tick keeps the parser and the status. -/
theorem reader_tryResizeBuffer (string2l : Bytes → ℕ → Option ℤ) (c : Redis.Reading.RedisConn)
    (idletime : ℤ) :
    (Redis.Reading.step string2l c (.tryResizeBuffer idletime)).redisParser = c.redisParser ∧
      (Redis.Reading.step string2l c (.tryResizeBuffer idletime)).status = c.status := by
  unfold Redis.Reading.step Redis.Reading.RedisConn.tryResizeBuffer
  dsimp only
  split_ifs <;> exact ⟨rfl, rfl⟩

/-- **One step.** -/
theorem Inv.step (hs : String2lSpec string2l) (hall : ∀ c ∈ all, Short (2 ^ 31) c)
    (hanswer : ∀ before c, answer before c ≠ some []) {op : Op}
    (h : Inv string2l answer all s t) (hf : Fires s op) (ht : t ++ arriving op <+: stream all) :
    Inv string2l answer all (step string2l answer s op) (t ++ arriving op) := by
  unfold Answers.step
  cases op with
  | event mask alloc r ws =>
    have hc : s.closed = false := hf.1
    rw [if_neg (by simp [hc])]
    rcases (h.serving hc).2 with hwait | hreply
    · exact h.event_waiting hs hall hanswer hwait hf ht
    · exact h.event_replying hreply hf
  | tryResizeBuffer idletime =>
    have harr : t ++ arriving (.tryResizeBuffer idletime) = t := List.append_nil t
    rw [harr]
    split_ifs with hc
    · exact h
    dsimp only
    have hop : ByLoop s.reader (.tryResizeBuffer idletime) := trivial
    have hp : Possible s.reader (.tryResizeBuffer idletime) := trivial
    have hstep := h.deals.step hs hall hp hop
    have harr' : t ++ Redis.Pipeline.arriving (.tryResizeBuffer idletime) = t := List.append_nil t
    rw [harr'] at hstep
    rw [harr] at ht
    have hsame := reader_tryResizeBuffer string2l s.reader idletime
    refine ⟨⟨hstep ht, h.writer, ?_⟩, fun _ => ?_⟩
    · rw [hsame.1]
      exact h.accepted
    · obtain ⟨ho, hmode⟩ := h.serving (by simpa using hc)
      refine ⟨by unfold Open at ho ⊢; rw [hsame.2]; exact ho, ?_⟩
      rcases hmode with ⟨h1, h2, h3, h4⟩ | ⟨h1, h2⟩
      · exact .inl ⟨h1, h2, h3, h4⟩
      · exact .inr ⟨h1, h2⟩
  | close =>
    have harr : t ++ arriving .close = t := List.append_nil t
    rw [harr]
    split_ifs
    · exact h
    · exact ⟨h.toAccount.congr rfl rfl, fun hb => by cases hb⟩

theorem inv_entered {max : ℤ} (hmax : max ≤ REDIS_MAX_MESSAGE) :
    Inv string2l answer all (entered max) [] :=
  ⟨⟨deals_accepted hmax all, ⟨rfl, fun _ => rfl, fun hi => absurd hi (by simp [entered]),
    by simp [entered], rfl⟩, rfl⟩, fun _ => ⟨.inl rfl, .inl ⟨rfl, rfl, rfl, by simp [entered]⟩⟩⟩

theorem inv_run (hs : String2lSpec string2l) (hall : ∀ c ∈ all, Short (2 ^ 31) c)
    (hanswer : ∀ before c, answer before c ≠ some []) :
    ∀ (ops : List Op) {s : HolyConn} {t : Bytes}, Inv string2l answer all s t →
    Guarded (step string2l answer) Fires s ops →
    t ++ ops.flatMap arriving <+: stream all →
    Inv string2l answer all (run (step string2l answer) s ops) (t ++ ops.flatMap arriving) := by
  intro ops
  induction ops with
  | nil =>
    intro s t h _ _
    rw [List.flatMap_nil, List.append_nil]
    exact h
  | cons op ops ih =>
    intro s t h hg ht
    rw [List.flatMap_cons, ← List.append_assoc] at ht ⊢
    exact ih (h.step hs hall hanswer hg.1 ((List.prefix_append _ _).trans ht)) hg.2 ht

end Inv

/-- **Every command is answered once and in order.** The commands of a stream arrive in any pieces,
the replies leave in any pieces, and the thread may shrink the buffer or close the connection at any
time. What has been sent is the first part of the responses to the commands dealt with. As long as
the connection is open these are all commands that have arrived, and the thread waits for requests
exactly when all their responses have been sent, and for room to send otherwise. -/
theorem answered_exact {string2l : Bytes → ℕ → Option ℤ} (hs : String2lSpec string2l)
    {answer : List Argv → Argv → Option Bytes} (hanswer : ∀ before c, answer before c ≠ some [])
    {max : ℤ} (hmax : max ≤ REDIS_MAX_MESSAGE) (all : List Argv)
    (hall : ∀ c ∈ all, Short (2 ^ 31) c) (ops : List Op)
    (hops : Guarded (step string2l answer) Fires (entered max) ops)
    (ht : ops.flatMap arriving <+: stream all) :
    let s := run (step string2l answer) (entered max) ops
    let done := dealt s.reader.redisParser.log
    ¬Stuck s.reader ∧ s.writer.fault = none ∧ ∃ todo rest, all = done ++ todo ∧
      (answers answer [] done).flatten = s.writer.sent ++ rest ∧
      (s.closed = false → Holds done todo (ops.flatMap arriving) ∧
        s.interest = if rest = [] then { epollin := true } else { epollout := true }) := by
  intro s done
  have hstart : Inv string2l answer all (entered max) [] := inv_entered hmax
  have h := inv_run hs hall hanswer ops hstart hops (by rwa [List.nil_append])
  rw [List.nil_append] at h
  change Inv string2l answer all s _ at h
  obtain ⟨todo, htodo⟩ := h.deals.prefix_all
  have hbalance := h.writer.balance
  rw [h.accepted] at hbalance
  refine ⟨h.deals.stuck, h.writer.fault, todo, pending s.writer, htodo.symm, hbalance.symm,
    fun hc => ?_⟩
  obtain ⟨hopen, hmode⟩ := h.serving hc
  obtain ⟨todo', htodo', hholds, -⟩ := h.deals.holds hs hall hopen ht
  rw [htodo', List.append_cancel_left_eq] at htodo
  rw [htodo]
  refine ⟨hholds, ?_⟩
  rcases hmode with hwait | hreply
  · rw [if_pos hwait.pending]
    exact hwait.interest
  · rw [if_neg hreply.loaded.pending_ne_nil]
    exact hreply.interest

/-- Two commands that arrive in two pieces; the replies are sent in two pieces. -/
theorem answered_exact_pair :
    let answer : List Argv → Argv → Option Bytes := fun _ c => some (commandBytes c)
    let ops : List Op := [
      .event { epollin := true } true (.data (bytes "*1\r\n$4\r\nPING\r\n*2\r\n$3\r\nGE")) [],
      .event { epollout := true } true .eagain [⟨3, -1, .eagain⟩],
      .tryResizeBuffer 3,
      .event { epollout := true } true .eagain [⟨40, 11, .eagain⟩],
      .event { epollin := true } true (.data (bytes "T\r\n$1\r\na\r\n")) []]
    let s := run (step Redis.Wire.string2l answer) (entered REDIS_MAX_MESSAGE) ops
    let done := dealt s.reader.redisParser.log
    ¬Stuck s.reader ∧ s.writer.fault = none ∧ ∃ todo rest,
      [[bytes "PING"], [bytes "GET", bytes "a"]] = done ++ todo ∧
      (answers answer [] done).flatten = s.writer.sent ++ rest ∧
      (s.closed = false → Holds done todo (ops.flatMap arriving) ∧
        s.interest = if rest = [] then { epollin := true } else { epollout := true }) :=
  answered_exact string2l_spec
    (fun _ c h => by
      have := length_lt_commandBytes c
      rw [Option.some.inj h] at this
      simp at this)
    le_rfl _
    (by
      intro c hc
      simp only [List.mem_cons, List.not_mem_nil, or_false] at hc
      rcases hc with rfl | rfl <;> exact ⟨by decide, by decide +kernel⟩)
    _ (by decide +kernel) (by decide +kernel)

/-! ### The replies leave -/

section Progress
variable {string2l : Bytes → ℕ → Option ℤ} {answer : List Argv → Argv → Option Bytes}
  {all : List Argv} {s : HolyConn} {t : Bytes}

theorem halfOrError_sent (c : Redis.Conn.RedisConn) (r : ℤ) (e : Redis.Conn.Errno) :
    (c.halfOrError r e).1.sent = c.sent := by
  unfold Redis.Conn.RedisConn.halfOrError
  by_cases hr : r = -1
  · rw [if_pos hr]
    rcases e with _ | _ | _ <;> dsimp only
    split <;> rfl
  · rw [if_neg hr]

theorem easyWritev_sent (c : Redis.Conn.RedisConn) (n : ℕ) : c.sent <+: (c.easyWritev n).sent := by
  unfold Redis.Conn.RedisConn.easyWritev
  split_ifs
  · exact List.prefix_refl _
  · exact List.prefix_append _ _

theorem writeLoop_sent : ∀ (ws : List Writev) (c : Redis.Conn.RedisConn),
    c.sent <+: (Redis.Conn.RedisConn.writeLoop ws c).1.sent
  | [], c => by
    rw [Redis.Conn.RedisConn.writeLoop, halfOrError_sent]
  | w :: ws, c => by
    have hw := easyWritev_sent c w.sent
    rw [Redis.Conn.RedisConn.writeLoop]
    split_ifs
    · exact hw
    · exact hw
    · exact hw.trans (writeLoop_sent ws _)
    · rw [halfOrError_sent]
      exact hw

/-- The first call of `easy_writev` sends something. -/
theorem writeLoop_sends_some {c : Redis.Conn.RedisConn} (h : Redis.Conn.Busy c)
    (hne : Redis.Conn.RedisConn.iovBytes c.iov ≠ []) {w : Writev} (hw : 0 < w.sent)
    (ws : List Writev) :
    c.sent.length < (Redis.Conn.RedisConn.writeLoop (w :: ws) c).1.sent.length := by
  have hdangling : ¬c.iov.any (fun v => v.dangling && v.bytes ≠ []) = true := by
    simp only [List.any_eq_true, not_exists, not_and]
    intro v hv
    simp [h.dangling v hv]
  have hlt : c.sent.length < (c.easyWritev w.sent).sent.length := by
    have := List.length_pos_iff.mpr hne
    rw [Redis.Conn.RedisConn.easyWritev, if_neg hdangling]
    simp only [List.length_append, List.length_take]
    omega
  have hb := (Redis.Conn.easyWritev_busy h w.sent).1
  rw [Redis.Conn.RedisConn.writeLoop, if_neg (by simp [hb.fault])]
  split_ifs
  · exact hlt
  · exact lt_of_lt_of_le hlt (writeLoop_sent ws _).length_le
  · rw [halfOrError_sent]
    exact hlt

theorem sendReply_sends_some {c : Redis.Conn.RedisConn} (hinv : Redis.Conn.Inv c) (h : Loaded c)
    {w : Writev} (hw : 0 < w.sent) (ws : List Writev) :
    c.sent.length < (c.sendReply (w :: ws)).1.sent.length := by
  obtain ⟨c', hbusy, hbytes, hsent, -, -, hsend⟩ := h.begins hinv (w :: ws)
  rw [hsend, ← hsent]
  exact writeLoop_sends_some hbusy hbytes hw ws

/-- A writable connection on which `easy_writev` sends at least one byte. -/
def Sending : Op → Prop
  | .event mask _ _ (w :: _) => mask.epollout ∧ 0 < w.sent
  | _ => False

variable (string2l answer s) in
theorem writer_event {mask : Mask} (alloc : Bool) (r : ReadResult) (ws : List Writev)
    (hin : mask.epollin = false) (hout : mask.epollout = true) :
    (s.handleConnEvent string2l answer mask alloc r ws).writer.sent =
        (s.writer.sendReply ws).1.sent ∧
      (s.handleConnEvent string2l answer mask alloc r ws).writer.accepted =
        (s.writer.sendReply ws).1.accepted := by
  rw [handleConnEvent_some (request_of_not_in hin), HolyConn.reply, if_pos hout]
  generalize s.writer.sendReply ws = x
  obtain ⟨c, _ | _ | _⟩ := x
  · exact ⟨rfl, rfl⟩
  · exact ⟨rfl, rfl⟩
  · exact ⟨rfl, rfl⟩

theorem pending_lt {c c' : Redis.Conn.RedisConn} (h : Redis.Conn.Inv c) (h' : Redis.Conn.Inv c')
    (hacc : c'.accepted = c.accepted) (hlt : c.sent.length < c'.sent.length) :
    (pending c').length < (pending c).length := by
  have hbal := congrArg List.length h.balance
  have hbal' := congrArg List.length h'.balance
  rw [hacc, ← hbal, List.length_append, List.length_append] at hbal'
  omega

/-- **Every such event shortens what is to be sent.** -/
theorem Inv.pending_step (h : Inv string2l answer all s t) {op : Op} (hf : Fires s op)
    (hop : Sending op) : Inv string2l answer all (Answers.step string2l answer s op) t ∧
      (pending (Answers.step string2l answer s op).writer).length <
        (pending s.writer).length := by
  rcases op with ⟨mask, alloc, r, _ | ⟨w, ws⟩⟩ | idletime | _
  · exact hop.elim
  swap
  · exact hop.elim
  swap
  · exact hop.elim
  obtain ⟨hout, hw⟩ := hop
  obtain ⟨hc, hint, hin⟩ := id hf
  rcases (h.serving hc).2 with hwait | hreply
  · have := hint hout
    rw [hwait.interest] at this
    cases this
  have hm : mask.epollin = false := by
    rw [hreply.interest] at hin
    by_contra hm
    exact absurd (hin (by simpa using hm)).1 (by simp)
  have hnext := h.event_replying hreply hf
  have harr : t ++ arriving (.event mask alloc r (w :: ws)) = t := by
    rcases r with b | _ | _ | _ <;> simp [arriving, hm]
  rw [harr] at hnext
  have hsome := sendReply_sends_some h.writer hreply.loaded hw ws
  have hacc := (Redis.Conn.sendReply_sends h.writer hreply.loaded.length (w :: ws)).2.1
  obtain ⟨hsent, haccepted⟩ := writer_event string2l answer s alloc r (w :: ws) hm hout
  rw [← hsent] at hsome
  rw [← haccepted] at hacc
  have hstep : Answers.step string2l answer s (.event mask alloc r (w :: ws)) =
      s.handleConnEvent string2l answer mask alloc r (w :: ws) := by
    rw [Answers.step, if_neg (by simp [hc])]
  rw [hstep]
  exact ⟨hnext, pending_lt h.writer hnext.writer hacc hsome⟩

/-- There are at most as many of them in a row as there are bytes to be sent. -/
theorem length_le_pending (ops : List Op) {s : HolyConn} (h : Inv string2l answer all s t)
    (hg : Guarded (step string2l answer) Fires s ops) (hops : ∀ op ∈ ops, Sending op) :
    ops.length ≤ (pending s.writer).length :=
  length_le_measure (fun s => Inv string2l answer all s t) (fun s => (pending s.writer).length)
    (fun _ _ h hop => h.pending_step hop.1 hop.2) h (guarded_and_forall hg hops)

end Progress

/-- **The replies leave**: from any point of a run, writable events that send something can follow
each other at most as often as there are bytes of the responses left to be sent. -/
theorem answered_within {string2l : Bytes → ℕ → Option ℤ} (hs : String2lSpec string2l)
    {answer : List Argv → Argv → Option Bytes} (hanswer : ∀ before c, answer before c ≠ some [])
    {max : ℤ} (hmax : max ≤ REDIS_MAX_MESSAGE) (all : List Argv)
    (hall : ∀ c ∈ all, Short (2 ^ 31) c) (ops ops' : List Op)
    (hops : Guarded (step string2l answer) Fires (entered max) (ops ++ ops'))
    (ht : ops.flatMap arriving <+: stream all) (hsend : ∀ op ∈ ops', Sending op) :
    let s := run (step string2l answer) (entered max) ops
    s.writer.sent.length + ops'.length ≤
      (answers answer [] (dealt s.reader.redisParser.log)).flatten.length := by
  intro s
  obtain ⟨hg, hg'⟩ := guarded_append.mp hops
  have hstart : Inv string2l answer all (entered max) [] := inv_entered hmax
  have h := inv_run hs hall hanswer ops hstart hg (by rwa [List.nil_append])
  change Inv string2l answer all s _ at h
  have hle := length_le_pending ops' h hg' hsend
  have hbal := congrArg List.length h.writer.balance
  rw [h.accepted, List.length_append] at hbal
  omega

theorem answered_within_pair :
    let answer : List Argv → Argv → Option Bytes := fun _ c => some (commandBytes c)
    let ops : List Op := [
      .event { epollin := true } true (.data (bytes "*1\r\n$4\r\nPING\r\n")) []]
    let ops' : List Op := [.event { epollout := true } true .eagain [⟨3, -1, .eagain⟩],
      .event { epollout := true } true .eagain [⟨40, 11, .eagain⟩]]
    let s := run (step Redis.Wire.string2l answer) (entered REDIS_MAX_MESSAGE) ops
    s.writer.sent.length + ops'.length ≤
      (answers answer [] (dealt s.reader.redisParser.log)).flatten.length :=
  answered_within string2l_spec
    (fun _ c h => by
      have := length_lt_commandBytes c
      rw [Option.some.inj h] at this
      simp at this)
    le_rfl [[bytes "PING"]]
    (by
      intro c hc
      rw [List.mem_singleton] at hc
      rw [hc]
      exact ⟨by decide, by decide +kernel⟩)
    _ _ (by decide +kernel) (by decide +kernel)
    (by
      intro op hop
      simp only [List.mem_cons, List.not_mem_nil, or_false] at hop
      rcases hop with rfl | rfl <;> exact ⟨rfl, by decide⟩)

/-! ### The thread -/

/-- The same status in the model of the threads. -/
def readStatus : Option Redis.Reading.ReadStatus → ReadStatus
  | some .readHalf => .readHalf
  | some .readAll => .readAll
  | some .readClose => .readClose
  | some .fullError => .fullError
  | some .parseError => .parseError
  | some .dealError => .dealError
  | some .ok => .ok
  | _ => .readError

/-- What the connection answers during an event. -/
def outcome (string2l : Bytes → ℕ → Option ℤ) (answer : List Argv → Argv → Option Bytes)
    (s : HolyConn) (mask : Mask) (alloc : Bool) (r : ReadResult) (ws : List Writev) : Outcome :=
  let s' := if mask.epollin then s.getRequest string2l answer alloc r else s
  { isReply := s'.writer.isReply
    write := (s'.writer.sendReply ws).2
    read := readStatus s'.reader.status }

theorem readStatus_open (st : Option Redis.Reading.ReadStatus) :
    (readStatus st ≠ .readAll ∧ readStatus st ≠ .readHalf) ↔
      (st ≠ some .readAll ∧ st ≠ some .readHalf) := by
  rcases st with _ | _ | _ | _ | _ | _ | _ | _ | _ <;> simp [readStatus]

/-- The reply part and the end of an event are the thread's. -/
theorem closed_finish {s : HolyConn} (hc : s.closed = false) (mask : Mask) (ws : List Writev)
    (b : Bool) (o : Outcome) (ho : o.write = (s.writer.sendReply ws).2) :
    (HolyConn.finish mask (s.reply mask ws b)).closed =
      match HolyThread.reply mask o b with
      | none => false
      | some shouldClose => mask.epollerr || mask.epollhup || shouldClose := by
  unfold HolyConn.reply HolyThread.reply
  rw [ho]
  generalize s.writer.sendReply ws = x
  by_cases hout : mask.epollout = true
  · rw [if_pos hout, if_pos hout]
    obtain ⟨c, _ | _ | _⟩ := x
    · rfl
    · exact hc
    · rfl
  · rw [if_neg hout, if_neg hout]
    rfl

/-- **The event closes the connection exactly when the thread does** that is given what the
connection answers. -/
theorem closed_handleConnEvent (string2l : Bytes → ℕ → Option ℤ)
    (answer : List Argv → Argv → Option Bytes) (s : HolyConn) (hc : s.closed = false) (mask : Mask)
    (alloc : Bool) (r : ReadResult) (ws : List Writev) :
    (s.handleConnEvent string2l answer mask alloc r ws).closed =
      HolyThread.closes false mask (outcome string2l answer s mask alloc r ws) := by
  unfold HolyThread.closes HolyThread.request
  rw [if_neg (by simp)]
  by_cases hin : mask.epollin = true
  swap
  · rw [handleConnEvent_some (request_of_not_in (by simpa using hin)), if_neg hin, Option.bind_some]
    have hwrite : ∀ x, s.writer.sendReply ws = x →
        (outcome string2l answer s mask alloc r ws).write = x.2 := by
      intro x hx
      rw [outcome, if_neg hin, hx]
    exact closed_finish hc mask ws false _ (hwrite _ rfl)
  have hrequest : s.request string2l answer mask alloc r =
      let s' := s.getRequest string2l answer alloc r
      if s'.reader.status ≠ some .readAll ∧ s'.reader.status ≠ some .readHalf then (s', some true)
      else if s'.writer.isReply then ({ s' with interest := { epollout := true } }, some false)
      else (s', none) := by
    rw [HolyConn.request, if_pos hin]
  have hout : outcome string2l answer s mask alloc r ws =
      let s' := s.getRequest string2l answer alloc r
      ⟨s'.writer.isReply, (s'.writer.sendReply ws).2, false, readStatus s'.reader.status⟩ := by
    rw [outcome, if_pos hin]
  have hclosed : (s.getRequest string2l answer alloc r).closed = false := hc
  rw [if_pos hin, hout]
  generalize s.getRequest string2l answer alloc r = s' at hrequest hclosed
  dsimp only at hrequest ⊢
  obtain ⟨x, hx⟩ : ∃ x, s'.writer.sendReply ws = x := ⟨_, rfl⟩
  rw [hx]
  by_cases hst : s'.reader.status ≠ some .readAll ∧ s'.reader.status ≠ some .readHalf
  · rw [if_pos hst] at hrequest
    rw [handleConnEvent_some hrequest, if_pos ((readStatus_open _).mpr hst), Option.bind_some]
    exact closed_finish hclosed mask ws true _ (by rw [hx])
  rw [if_neg hst] at hrequest
  rw [if_neg (mt (readStatus_open _).mp hst)]
  by_cases hr : s'.writer.isReply = true
  · rw [if_pos hr] at hrequest
    rw [handleConnEvent_some hrequest, if_pos hr, Option.bind_some]
    exact closed_finish (s := { s' with interest := { epollout := true } }) hclosed mask ws false _
      (by rw [hx])
  · rw [if_neg hr] at hrequest
    rw [handleConnEvent_none hrequest, if_neg hr]
    exact hclosed

end Pink.Server.Answers
