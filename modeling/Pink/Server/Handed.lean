import Pink.Server.Answers

/-! # Requests handed to tasks

A `RedisConn` with `kAsynchronous` in a `WorkerThread`: `GetRequest` hands a batch of commands to a
task of the program, which answers with `WriteResp` and at the end calls `NotifyEpoll`. Meanwhile
the thread watches no events of the connection. The item that `NotifyEpoll(true)` puts in the pipe
makes the thread watch `EPOLLIN` and `EPOLLOUT`; after `NotifyEpoll(false)` it never watches
anything again.

The right to use the connection goes round: the thread has it while it watches events, then the task
has it, then the item (`one_owner`). Nothing is lost unless the thread reads a request while only a
part of the replies has been sent (`replies_exact`, `not_replies_exact`): an event with `EPOLLIN`
and without `EPOLLOUT` at such a time leads to it. -/

namespace Pink.Server.Handed

open Pink.Redis.Wire Pink.Redis.Parser Pink.Redis.Fragment Pink.Redis.Format Pink.Redis.Pieces
open Pink.Redis.Callbacks Pink.Redis.Dealt Pink.Lib.Runs Pink.Server.Threads Pink.Server.Answers
open Pink.Redis.Reading (ReadResult Stuck Possible accepted REDIS_MAX_MESSAGE)
open Pink.Redis.Served (Open ByLoop)
open Pink.Redis.Conn (WriteStatus Writev pending)
open Pink.Redis.Conn.RedisConn (writeResp)

/-- A connection of a worker thread. -/
structure WorkerConn where
  reader : Redis.Reading.RedisConn
  writer : Redis.Conn.RedisConn := {}
  interest : Mask := { epollin := true }
  closed : Bool := false
  /-- The batches whose tasks have not called `NotifyEpoll` yet. -/
  tasks : List (List Argv) := []
  /-- The `kNotiEpolloutAndEpollin` items in the pipe. -/
  items : ℕ := 0
  /-- The calls of `NotifyEpoll(false)`. -/
  failed : ℕ := 0
  /-- The bytes that `read` has returned; not in the source. -/
  arrived : Bytes := []

namespace WorkerConn

section Thread
variable (string2l : Bytes → ℕ → Option ℤ)

/-- `GetRequest`, with the batches that `Complete` hands to tasks. -/
def getRequest (s : WorkerConn) (alloc : Bool) (r : ReadResult) : WorkerConn :=
  let reader := Redis.Reading.step string2l s.reader (.getRequest alloc r)
  let parses := HolyConn.parses s.reader alloc r
  { s with
    reader := reader
    writer :=
      if parses && s.writer.response ≠ [] then { s.writer with isReply := true } else s.writer
    tasks := s.tasks ++
      (batches reader.redisParser.log).drop (batches s.reader.redisParser.log).length
    arrived := s.arrived ++ Redis.Pipeline.arriving (.getRequest alloc r) }

/-- The reply part of an event: `should_close` behind it, or `none` if the event is over. -/
def reply (s : WorkerConn) (mask : Mask) (isQuit : Bool) (ws : List Writev) :
    WorkerConn × Option Bool :=
  if mask.epollout && s.writer.isReply then
    let x := s.writer.sendReply ws
    match x.2 with
    | .writeAll => ({ s with writer := { x.1 with isReply := false },
                             interest := { epollin := true } }, some isQuit)
    | .writeHalf => ({ s with writer := x.1 }, none)
    | .writeError => ({ s with writer := x.1 }, some true)
  else (s, some false)

/-- The request part of an event. -/
def request (s : WorkerConn) (mask : Mask) (alloc : Bool) (r : ReadResult) (shouldClose : Bool) :
    WorkerConn × Option Bool :=
  if !shouldClose && mask.epollin then
    let s := s.getRequest string2l alloc r
    if s.reader.status = some .readAll then ({ s with interest := {} }, some false)
    else if s.reader.status = some .readHalf then (s, none)
    else (s, some true)
  else (s, some shouldClose)

/-- The end of an event. -/
def finish (mask : Mask) : WorkerConn × Option Bool → WorkerConn
  | (s, none) => s
  | (s, some shouldClose) => { s with closed := mask.epollerr || mask.epollhup || shouldClose }

def handleEvent (s : WorkerConn) (mask : Mask) (isQuit alloc : Bool) (r : ReadResult)
    (ws : List Writev) : WorkerConn :=
  match s.reply mask isQuit ws with
  | (s, none) => s
  | (s, some shouldClose) => finish mask (s.request string2l mask alloc r shouldClose)

end Thread

/-- `NotifyEpoll` at the end of the first task. -/
def notifyEpoll (s : WorkerConn) (success : Bool) : WorkerConn :=
  if s.tasks = [] then s
  else if success then { s with tasks := s.tasks.tail, items := s.items + 1 }
  else { s with tasks := s.tasks.tail, failed := s.failed + 1 }

/-- A `kNotiEpolloutAndEpollin` item is taken from the pipe. -/
def handleItem (s : WorkerConn) : WorkerConn :=
  if s.items = 0 then s
  else if s.closed then { s with items := s.items - 1 }
  else { s with items := s.items - 1, interest := { epollin := true, epollout := true } }

end WorkerConn

/-! ### Runs -/

inductive Op
  /-- A readiness event, with what `is_quit`, `realloc`, `read` and `easy_writev` do. -/
  | event (mask : Mask) (isQuit alloc : Bool) (r : ReadResult) (ws : List Writev)
  /-- The task that is running calls `WriteResp`. -/
  | respond (resp : Bytes)
  | notifyEpoll (success : Bool)
  | item
  | tryResizeBuffer (idletime : ℤ)
  /-- A kill, a time-out or `Cleanup`. -/
  | close
  deriving DecidableEq, Repr

def step (string2l : Bytes → ℕ → Option ℤ) (s : WorkerConn) : Op → WorkerConn
  | .event mask isQuit alloc r ws =>
    if s.closed then s else s.handleEvent string2l mask isQuit alloc r ws
  | .respond resp => if s.tasks = [] then s else { s with writer := s.writer.writeResp resp }
  | .notifyEpoll success => s.notifyEpoll success
  | .item => s.handleItem
  | .tryResizeBuffer idletime =>
    if s.closed then s
    else { s with reader := Redis.Reading.step string2l s.reader (.tryResizeBuffer idletime) }
  | .close => { s with closed := true }

/-- A connection that has just been put in `conns_`. -/
def entered (max : ℤ) : WorkerConn := { reader := accepted max okSettings }

/-- epoll reports only the events that it watches, and errors; responses are not empty, and an `int`
counts them. -/
def Fires (s : WorkerConn) : Op → Prop
  | .event mask _ alloc r _ => s.closed = false ∧ (mask.epollout → s.interest.epollout) ∧
      (mask.epollin → s.interest.epollin ∧ Possible s.reader (.getRequest alloc r))
  | .respond resp => resp ≠ [] ∧ s.writer.response.length + 1 < 2 ^ 31
  | _ => True

/-- No request is read while a part of the replies has been sent: `EPOLLOUT` comes with
`EPOLLIN`. -/
def Undivided (s : WorkerConn) : Op → Prop
  | .event mask _ _ _ _ => mask.epollin → 0 ≤ s.writer.iovIdx → mask.epollout
  | _ => True

instance (s : WorkerConn) : ∀ op, Decidable (Fires s op)
  | .event _ _ _ _ _ => inferInstanceAs (Decidable (_ ∧ _ ∧ _))
  | .respond _ => inferInstanceAs (Decidable (_ ∧ _))
  | .notifyEpoll _ => .isTrue trivial
  | .item => .isTrue trivial
  | .tryResizeBuffer _ => .isTrue trivial
  | .close => .isTrue trivial

instance (s : WorkerConn) : ∀ op, Decidable (Undivided s op)
  | .event _ _ _ _ _ => inferInstanceAs (Decidable (_ → _ → _))
  | .respond _ => .isTrue trivial
  | .notifyEpoll _ => .isTrue trivial
  | .item => .isTrue trivial
  | .tryResizeBuffer _ => .isTrue trivial
  | .close => .isTrue trivial

/-! ### What an event does -/

section Cases
variable {string2l : Bytes → ℕ → Option ℤ} {s : WorkerConn} {mask : Mask} {isQuit alloc : Bool}
  {r : ReadResult} {ws : List Writev} {b : Bool}

/-- How the reply part ends. -/
inductive Replies (s : WorkerConn) (mask : Mask) (isQuit : Bool) (ws : List Writev) :
    WorkerConn × Option Bool → Prop
  | skip (h : ¬(mask.epollout = true ∧ s.writer.isReply = true)) : Replies s mask isQuit ws
      (s, some false)
  | all (hm : mask.epollout = true) (hr : s.writer.isReply = true) {c : Redis.Conn.RedisConn}
      (hx : s.writer.sendReply ws = (c, .writeAll)) : Replies s mask isQuit ws
      ({ s with writer := { c with isReply := false }, interest := { epollin := true } },
        some isQuit)
  | half (hm : mask.epollout = true) (hr : s.writer.isReply = true) {c : Redis.Conn.RedisConn}
      (hx : s.writer.sendReply ws = (c, .writeHalf)) : Replies s mask isQuit ws
      ({ s with writer := c }, none)
  | error (hm : mask.epollout = true) (hr : s.writer.isReply = true) {c : Redis.Conn.RedisConn}
      (hx : s.writer.sendReply ws = (c, .writeError)) : Replies s mask isQuit ws
      ({ s with writer := c }, some true)

variable (s mask isQuit ws) in
theorem replies : Replies s mask isQuit ws (s.reply mask isQuit ws) := by
  by_cases hm : mask.epollout = true ∧ s.writer.isReply = true
  swap
  · rw [WorkerConn.reply, if_neg (by simpa using hm)]
    exact .skip hm
  obtain ⟨hm, hr⟩ := hm
  obtain ⟨x, hx⟩ : ∃ x, s.writer.sendReply ws = x := ⟨_, rfl⟩
  rw [WorkerConn.reply, if_pos (by simp [hm, hr]), hx]
  obtain ⟨c, _ | _ | _⟩ := x
  · exact .all hm hr hx
  · exact .half hm hr hx
  · exact .error hm hr hx

/-- How the request part ends, with the connection behind `GetRequest`. -/
inductive Requests (s s' : WorkerConn) (mask : Mask) (b : Bool) : WorkerConn × Option Bool → Prop
  | skip (h : mask.epollin = true → b = true) : Requests s s' mask b (s, some b)
  | all (hm : mask.epollin = true) (hb : b = false) (hst : s'.reader.status = some .readAll) :
      Requests s s' mask b ({ s' with interest := {} }, some false)
  | half (hm : mask.epollin = true) (hb : b = false) (hst : s'.reader.status = some .readHalf) :
      Requests s s' mask b (s', none)
  | error (hm : mask.epollin = true) (hb : b = false) (h1 : s'.reader.status ≠ some .readAll)
      (h2 : s'.reader.status ≠ some .readHalf) : Requests s s' mask b (s', some true)

variable (string2l s mask alloc r b) in
theorem requests : Requests s (s.getRequest string2l alloc r) mask b
    (s.request string2l mask alloc r b) := by
  unfold WorkerConn.request
  by_cases hm : mask.epollin = true ∧ b = false
  swap
  · rw [if_neg (by simpa [and_comm] using hm)]
    exact .skip fun hin => by simpa using not_and.mp hm hin
  rw [if_pos (by simp [hm.1, hm.2])]
  dsimp only
  split_ifs with h1 h2
  · exact .all hm.1 hm.2 h1
  · exact .half hm.1 hm.2 h2
  · exact .error hm.1 hm.2 h1 h2

end Cases

/-! ### Who may use the connection -/

section Owners
variable {string2l : Bytes → ℕ → Option ℤ} {all : List Argv} {s : WorkerConn}

/-- The thread watches the events of the connection. -/
def armed (s : WorkerConn) : ℕ := if s.interest.epollin then 1 else 0

/-- The commands are dealt with in order, and of the thread, the tasks and the items at most one may
use the connection. -/
structure Owned (string2l : Bytes → ℕ → Option ℤ) (all : List Argv) (s : WorkerConn) : Prop where
  deals : Deals string2l all s.reader s.arrived
  opened : s.closed = false → Open s.reader
  tokens : s.closed = false → s.tasks.length + s.items + s.failed + armed s = 1
  tokens_le : s.tasks.length + s.items + s.failed ≤ 1
  watched : s.interest.epollout = true → s.interest.epollin = true
  last : s.tasks <:+ batches s.reader.redisParser.log
  done : s.closed = false → s.interest.epollin = false → s.reader.status = some .readAll

theorem Owned.of_armed (h : Owned string2l all s) (hc : s.closed = false)
    (hin : s.interest.epollin = true) : s.tasks = [] ∧ s.items = 0 ∧ s.failed = 0 := by
  have := h.tokens hc
  rw [armed, if_pos hin] at this
  exact ⟨List.length_eq_zero_iff.mp (by omega), by omega, by omega⟩

theorem Owned.of_closed {s' : WorkerConn} (h : Owned string2l all s)
    (hr : s'.reader = s.reader) (ha : s'.arrived = s.arrived) (hc : s'.closed = true)
    (ht : s'.tasks = s.tasks) (hi : s'.items = s.items) (hf : s'.failed = s.failed)
    (hint : s'.interest = s.interest) : Owned string2l all s' :=
  ⟨by rw [hr, ha]; exact h.deals, fun hc' => absurd hc' (by simp [hc]),
    fun hc' => absurd hc' (by simp [hc]), by rw [ht, hi, hf]; exact h.tokens_le,
    by rw [hint]; exact h.watched, by rw [ht, hr]; exact h.last,
    fun hc' => absurd hc' (by simp [hc])⟩

/-- The writer does not matter. -/
theorem Owned.congr {s' : WorkerConn} (h : Owned string2l all s) (hr : s'.reader = s.reader)
    (ha : s'.arrived = s.arrived) (hc : s'.closed = false → s.closed = false)
    (ht : s'.tasks = s.tasks) (hi : s'.items = s.items) (hf : s'.failed = s.failed)
    (hin : s'.interest.epollin = s.interest.epollin)
    (hout : s'.interest.epollout = true → s.interest.epollout = true) : Owned string2l all s' :=
  ⟨by rw [hr, ha]; exact h.deals, fun hc' => by rw [hr]; exact h.opened (hc hc'),
    fun hc' => by rw [ht, hi, hf, armed, hin]; exact h.tokens (hc hc'),
    by rw [ht, hi, hf]; exact h.tokens_le, fun ho => by rw [hin]; exact h.watched (hout ho),
    by rw [ht, hr]; exact h.last, fun hc' hi' => by rw [hr]; exact h.done (hc hc') (hin ▸ hi')⟩

/-- The reply part leaves the connection to the thread. -/
theorem Owned.reply (h : Owned string2l all s) {mask : Mask} {isQuit : Bool} {ws : List Writev}
    (hint : mask.epollout = true → s.interest.epollout = true) {y : WorkerConn × Option Bool}
    (hy : Replies s mask isQuit ws y) : Owned string2l all y.1 ∧ y.1.closed = s.closed ∧
      y.1.reader = s.reader ∧ y.1.arrived = s.arrived ∧
      y.1.interest.epollin = s.interest.epollin := by
  cases hy with
  | skip => exact ⟨h, rfl, rfl, rfl, rfl⟩
  | all hm hr hx =>
    have hin := h.watched (hint hm)
    refine ⟨?_, rfl, rfl, rfl, hin.symm⟩
    exact h.congr rfl rfl id rfl rfl rfl hin.symm fun ho => by cases ho
  | half hm hr hx => exact ⟨h.congr rfl rfl id rfl rfl rfl rfl id, rfl, rfl, rfl, rfl⟩
  | error hm hr hx => exact ⟨h.congr rfl rfl id rfl rfl rfl rfl id, rfl, rfl, rfl, rfl⟩

/-- A connection whose `GetRequest` has not returned `kReadAll` or `kReadHalf` is closed. -/
theorem Owned.getRequest (h : Owned string2l all s) (hs : String2lSpec string2l)
    (hall : ∀ c ∈ all, Short (2 ^ 31) c) (hc : s.closed = false)
    (hin : s.interest.epollin = true) {alloc : Bool} {r : ReadResult}
    (hp : Possible s.reader (.getRequest alloc r))
    (ht : (s.getRequest string2l alloc r).arrived <+: stream all) {b : Bool} {i : Mask}
    (hb : b = false → (s.getRequest string2l alloc r).reader.status = some .readAll ∧ i = {} ∨
      (s.getRequest string2l alloc r).reader.status = some .readHalf ∧ i = s.interest)
    (hi : i = {} ∨ i = s.interest) :
    Owned string2l all { s.getRequest string2l alloc r with closed := b, interest := i } := by
  obtain ⟨htasks, hitems, hfailed⟩ := h.of_armed hc hin
  have hopen : Open s.reader := h.opened hc
  have hdeals := h.deals.step hs hall hp hopen ht
  obtain ⟨-, bs, hbs, hlen⟩ := h.deals.delivers hp hopen hs hall ht
  have hnew : (s.getRequest string2l alloc r).tasks = bs := by
    show s.tasks ++ (batches _).drop _ = bs
    rw [htasks, hbs, List.drop_left' rfl, List.nil_append]
  have hlast : bs <:+ batches (s.getRequest string2l alloc r).reader.redisParser.log :=
    ⟨_, hbs.symm⟩
  have hlen' : bs.length = if (s.getRequest string2l alloc r).reader.status = some .readAll
      then 1 else 0 := hlen
  have hle : bs.length ≤ 1 := by
    rw [hlen']
    split_ifs <;> omega
  refine ⟨hdeals, fun hb' => ?_, fun hb' => ?_, ?_, ?_, ?_, fun hb' hi' => ?_⟩
  · rcases hb hb' with ⟨hst, -⟩ | ⟨hst, -⟩
    · exact .inr (.inl hst)
    · exact .inr (.inr hst)
  · show (s.getRequest string2l alloc r).tasks.length + s.items + s.failed + armed _ = 1
    rw [hnew, hlen', hitems, hfailed, armed]
    dsimp only
    rcases hb hb' with ⟨hst, hi'⟩ | ⟨hst, hi'⟩
    · rw [if_pos hst, hi']
      rfl
    · rw [hst, if_neg (by simp), hi', if_pos hin]
  · show (s.getRequest string2l alloc r).tasks.length + s.items + s.failed ≤ 1
    rw [hnew, hitems, hfailed]
    omega
  · show i.epollout = true → i.epollin = true
    intro ho
    rcases hi with hi' | hi'
    · rw [hi'] at ho
      cases ho
    · rw [hi']
      exact hin
  · rw [← hnew] at hlast
    exact hlast
  · rcases hb hb' with ⟨hst, -⟩ | ⟨-, hi''⟩
    · exact hst
    · have hin' : i.epollin = false := hi'
      rw [hi'', hin] at hin'
      cases hin'

/-- The request part and the end of an event. -/
theorem Owned.request (h : Owned string2l all s) (hs : String2lSpec string2l)
    (hall : ∀ c ∈ all, Short (2 ^ 31) c) (hc : s.closed = false) {mask : Mask} {alloc b : Bool}
    {r : ReadResult} (hin : mask.epollin = true → s.interest.epollin = true ∧
      Possible s.reader (.getRequest alloc r)) {y : WorkerConn × Option Bool}
    (hy : Requests s (s.getRequest string2l alloc r) mask b y)
    (ht : (WorkerConn.finish mask y).arrived <+: stream all) :
    Owned string2l all (WorkerConn.finish mask y) := by
  cases hy with
  | skip => exact h.congr rfl rfl (fun _ => hc) rfl rfl rfl rfl id
  | all hm hb hst =>
    obtain ⟨hint, hp⟩ := hin hm
    exact h.getRequest hs hall hc hint hp ht (fun _ => .inl ⟨hst, rfl⟩) (.inl rfl)
  | half hm hb hst =>
    obtain ⟨hint, hp⟩ := hin hm
    have hsame : s.getRequest string2l alloc r =
        { s.getRequest string2l alloc r with closed := false, interest := s.interest } := by
      rw [← hc]
      rfl
    have hnext := h.getRequest hs hall hc hint hp ht (b := false) (i := s.interest)
      (fun _ => .inr ⟨hst, rfl⟩) (.inr rfl)
    rw [← hsame] at hnext
    exact hnext
  | error hm hb =>
    obtain ⟨hint, hp⟩ := hin hm
    exact h.getRequest hs hall hc hint hp ht
      (fun hclose => absurd hclose (by simp)) (.inr rfl)

theorem arrived_finish {mask : Mask} (y : WorkerConn × Option Bool) :
    (WorkerConn.finish mask y).arrived = y.1.arrived := by
  obtain ⟨s, _ | b⟩ := y <;> rfl

/-- What has been read stays read. -/
theorem arrived_step (string2l : Bytes → ℕ → Option ℤ) (s : WorkerConn) (op : Op) :
    s.arrived <+: (step string2l s op).arrived := by
  cases op with
  | event mask isQuit alloc r ws =>
    rw [step]
    split_ifs
    · exact List.prefix_refl _
    have hreply : (s.reply mask isQuit ws).1.arrived = s.arrived := by
      have hy := replies s mask isQuit ws
      generalize s.reply mask isQuit ws = y at hy
      cases hy <;> rfl
    unfold WorkerConn.handleEvent
    generalize s.reply mask isQuit ws = y at hreply
    obtain ⟨s', _ | b⟩ := y <;> dsimp only at hreply ⊢
    · rw [hreply]
    have hy := requests string2l s' mask alloc r b
    generalize s'.request string2l mask alloc r b = z at hy
    rw [arrived_finish, ← hreply]
    cases hy
    · exact List.prefix_refl _
    · exact List.prefix_append _ _
    · exact List.prefix_append _ _
    · exact List.prefix_append _ _
  | respond resp =>
    rw [step]
    split_ifs <;> exact List.prefix_refl _
  | notifyEpoll success =>
    rw [step, WorkerConn.notifyEpoll]
    split_ifs <;> exact List.prefix_refl _
  | item =>
    rw [step, WorkerConn.handleItem]
    split_ifs <;> exact List.prefix_refl _
  | tryResizeBuffer idletime =>
    rw [step]
    split_ifs <;> exact List.prefix_refl _
  | close => exact List.prefix_refl _

/-- **One step.** -/
theorem Owned.step (hs : String2lSpec string2l) (hall : ∀ c ∈ all, Short (2 ^ 31) c) {op : Op}
    (h : Owned string2l all s) (hf : Fires s op)
    (ht : (Handed.step string2l s op).arrived <+: stream all) :
    Owned string2l all (Handed.step string2l s op) := by
  cases op with
  | event mask isQuit alloc r ws =>
    obtain ⟨hc, hout, hin⟩ := hf
    rw [Handed.step, if_neg (by simp [hc])] at ht ⊢
    have hy := replies s mask isQuit ws
    unfold WorkerConn.handleEvent at ht ⊢
    generalize s.reply mask isQuit ws = y at hy ht
    obtain ⟨h', hc', hr', -, hin'⟩ := h.reply hout hy
    obtain ⟨s', _ | b⟩ := y
    · exact h'
    · dsimp only at h' hc' hr' hin' ht ⊢
      refine h'.request hs hall (hc'.trans hc) (fun hm => ?_)
        (requests string2l s' mask alloc r b) ht
      rw [hin', hr']
      exact hin hm
  | respond resp =>
    rw [Handed.step]
    split_ifs
    · exact h
    · exact h.congr rfl rfl id rfl rfl rfl rfl id
  | notifyEpoll success =>
    rw [Handed.step, WorkerConn.notifyEpoll]
    by_cases htasks : s.tasks = []
    · rw [if_pos htasks]
      exact h
    rw [if_neg htasks]
    have hpos := List.length_pos_iff.mpr htasks
    have htail : s.tasks.tail.length = s.tasks.length - 1 := List.length_tail
    have hlast : s.tasks.tail <:+ batches s.reader.redisParser.log :=
      (List.tail_suffix _).trans h.last
    have hle := h.tokens_le
    split_ifs
    · refine ⟨h.deals, h.opened, fun hc => ?_, ?_, h.watched, hlast, h.done⟩
      · have := h.tokens hc
        show s.tasks.tail.length + (s.items + 1) + s.failed + armed s = 1
        omega
      · dsimp only
        omega
    · refine ⟨h.deals, h.opened, fun hc => ?_, ?_, h.watched, hlast, h.done⟩
      · have := h.tokens hc
        show s.tasks.tail.length + s.items + (s.failed + 1) + armed s = 1
        omega
      · dsimp only
        omega
  | item =>
    rw [Handed.step, WorkerConn.handleItem]
    by_cases hitems : s.items = 0
    · rw [if_pos hitems]
      exact h
    rw [if_neg hitems]
    have hle := h.tokens_le
    split_ifs with hc
    · refine ⟨h.deals, h.opened, fun hc' => absurd hc (by simpa using hc'), ?_, h.watched, h.last,
        h.done⟩
      dsimp only
      omega
    · refine ⟨h.deals, h.opened, fun _ => ?_, ?_, fun _ => rfl, h.last,
        fun _ hi => absurd hi (by simp)⟩
      · show s.tasks.length + (s.items - 1) + s.failed + 1 = 1
        omega
      · dsimp only
        omega
  | tryResizeBuffer idletime =>
    rw [Handed.step] at ht ⊢
    split_ifs at ht ⊢ with hc
    · exact h
    have hp : Possible s.reader (.tryResizeBuffer idletime) := trivial
    have hop : ByLoop s.reader (.tryResizeBuffer idletime) := trivial
    have harr : s.arrived ++ Redis.Pipeline.arriving (.tryResizeBuffer idletime) = s.arrived :=
      List.append_nil _
    have hdeals := h.deals.step hs hall hp hop (by rw [harr]; exact ht)
    rw [harr] at hdeals
    obtain ⟨hparser, hstatus⟩ := reader_tryResizeBuffer string2l s.reader idletime
    refine ⟨hdeals, fun hc' => ?_, h.tokens, h.tokens_le, h.watched, ?_,
      fun hc' hi => hstatus.trans (h.done hc' hi)⟩
    · have ho := h.opened hc'
      unfold Open at ho ⊢
      rw [hstatus]
      exact ho
    · show s.tasks <:+ _
      rw [hparser]
      exact h.last
  | close => exact h.of_closed rfl rfl rfl rfl rfl rfl rfl

theorem owned_entered {max : ℤ} (hmax : max ≤ REDIS_MAX_MESSAGE) :
    Owned string2l all (entered max) :=
  ⟨deals_accepted hmax all, fun _ => .inl rfl, fun _ => rfl, Nat.zero_le _,
    fun h => absurd h (by simp [entered]), List.nil_suffix,
    fun _ h => absurd h (by simp [entered])⟩

end Owners

/-! ### The replies -/

section Replying
variable {string2l : Bytes → ℕ → Option ℤ} {all : List Argv} {s : WorkerConn}

/-- Nothing is lost: no array is in use while a task is running, and what is to be sent is watched
for. -/
structure Sound (s : WorkerConn) : Prop where
  writer : Redis.Conn.Inv s.writer
  nonempty : ∀ r ∈ s.writer.response, r ≠ []
  length : s.writer.response.length < 2 ^ 31
  reply : s.writer.isReply = true ↔ s.writer.response ≠ []
  busy : 0 ≤ s.writer.iovIdx → Redis.Conn.RedisConn.iovBytes s.writer.iov ≠ []
  idle : s.tasks ≠ [] → s.writer.iovIdx < 0
  silent : s.closed = false → s.interest.epollin = true → s.interest.epollout = false →
    s.writer.response = []
  part : s.closed = false → 0 ≤ s.writer.iovIdx → s.interest.epollout = true

theorem Sound.loaded (h : Sound s) (hr : s.writer.isReply = true) : Loaded s.writer :=
  ⟨h.reply.mp hr, h.nonempty, h.length, h.busy⟩

/-- A step that leaves the writer alone. -/
theorem Sound.congr {s' : WorkerConn} (h : Sound s) (hw : s'.writer = s.writer)
    (ht : s'.tasks ≠ [] → s.writer.iovIdx < 0)
    (hsilent : s'.closed = false → s'.interest.epollin = true → s'.interest.epollout = false →
      s.writer.response = [])
    (hpart : s'.closed = false → 0 ≤ s.writer.iovIdx → s'.interest.epollout = true) : Sound s' :=
  ⟨by rw [hw]; exact h.writer, by rw [hw]; exact h.nonempty, by rw [hw]; exact h.length,
    by rw [hw]; exact h.reply, by rw [hw]; exact h.busy, by rw [hw]; exact ht,
    by rw [hw]; exact hsilent, by rw [hw]; exact hpart⟩

/-- The reply part sends all there is, or no request is read. -/
theorem Sound.reply_part (h : Sound s) {mask : Mask} {isQuit : Bool} {ws : List Writev}
    (htasks : s.tasks ≠ [] → s.interest.epollout = false)
    (hint : mask.epollout = true → s.interest.epollout = true)
    (hu : mask.epollin = true → 0 ≤ s.writer.iovIdx → mask.epollout = true)
    {y : WorkerConn × Option Bool} (hy : Replies s mask isQuit ws y) :
    Sound y.1 ∧ (y.2 = some false → mask.epollin = true → y.1.writer.iovIdx < 0) := by
  -- what a call of `SendReply` that does not send all leaves behind
  have hpartly : ∀ {c : Redis.Conn.RedisConn} {st : WriteStatus}, mask.epollout = true →
      s.writer.isReply = true → s.writer.sendReply ws = (c, st) → st ≠ .writeAll →
      Sound { s with writer := c } := by
    intro c st hm hr hx hst
    have hout := hint hm
    obtain ⟨hinv, -, -⟩ := Redis.Conn.sendReply_sends h.writer h.length ws
    obtain ⟨-, hpart, hreply⟩ := sendReply_leaves h.writer (h.loaded hr) ws
    rw [hx] at hinv hpart hreply
    obtain ⟨hresp, hbusy⟩ := hpart hst
    dsimp only at hinv hresp hbusy hreply
    refine ⟨hinv, ?_, ?_, ?_, hbusy, fun ht => ?_, fun _ _ ho => ?_, fun _ _ => hout⟩
    · rw [hresp]
      exact h.nonempty
    · rw [hresp]
      exact h.length
    · rw [hresp, hreply]
      exact h.reply
    · rw [htasks ht] at hout
      cases hout
    · have ho' : s.interest.epollout = false := ho
      rw [ho'] at hout
      cases hout
  cases hy with
  | skip hskip =>
    refine ⟨h, fun _ hm => ?_⟩
    by_contra hbusy
    have hne := (h.writer.shape (not_lt.mp hbusy)).2.2
    exact hskip ⟨hu hm (not_lt.mp hbusy), h.reply.mpr hne⟩
  | all hm hr hx =>
    have hout := hint hm
    obtain ⟨hinv, -, -⟩ := Redis.Conn.sendReply_sends h.writer h.length ws
    obtain ⟨hall, -, -⟩ := sendReply_leaves h.writer (h.loaded hr) ws
    rw [hx] at hinv hall
    obtain ⟨hresp, hidle⟩ := hall rfl
    dsimp only at hinv hresp hidle
    refine ⟨⟨⟨hinv.fault, hinv.idle, hinv.shape, hinv.dangling, hinv.balance⟩, ?_, ?_, ?_,
      fun hb => absurd hidle (not_lt.mpr hb), fun _ => hidle, fun _ _ _ => hresp,
      fun _ hb => absurd hidle (not_lt.mpr hb)⟩, fun _ _ => hidle⟩
    · show ∀ r ∈ _, r ≠ []
      dsimp only
      rw [hresp]
      exact fun r hr => absurd hr List.not_mem_nil
    · dsimp only
      rw [hresp]
      decide
    · dsimp only
      rw [hresp]
      simp
  | half hm hr hx => exact ⟨hpartly hm hr hx (by simp), fun hy => by cases hy⟩
  | error hm hr hx => exact ⟨hpartly hm hr hx (by simp), fun hy => by cases hy⟩

variable (string2l) in
/-- `set_is_reply` at the end of `GetRequest` changes nothing. -/
theorem Sound.writer_getRequest (h : Sound s) (alloc : Bool) (r : ReadResult) :
    (s.getRequest string2l alloc r).writer = s.writer := by
  have hset : ∀ b : Bool, (if b && s.writer.response ≠ [] then { s.writer with isReply := true }
      else s.writer) = s.writer := by
    intro b
    split_ifs with hif
    · rw [Bool.and_eq_true] at hif
      have hr := h.reply.mpr (of_decide_eq_true hif.2)
      rw [← hr]
    · rfl
  exact hset _

/-- The request part and the end of an event. -/
theorem Sound.request_part (h : Sound s) {mask : Mask} {alloc b : Bool} {r : ReadResult}
    (hc : s.closed = false) (hidle : b = false → mask.epollin = true → s.writer.iovIdx < 0)
    {y : WorkerConn × Option Bool}
    (hy : Requests s (s.getRequest string2l alloc r) mask b y) :
    Sound (WorkerConn.finish mask y) := by
  have hw := h.writer_getRequest string2l alloc r
  cases hy with
  | skip =>
    exact h.congr rfl h.idle (fun _ => h.silent hc) fun _ => h.part hc
  | all hm hb hst =>
    have hidle' := hidle hb hm
    exact h.congr hw (fun _ => hidle') (fun _ hi => by cases hi)
      fun _ hbusy => absurd hidle' (not_lt.mpr hbusy)
  | half hm hb hst =>
    exact h.congr hw (fun _ => hidle hb hm) (fun _ => h.silent hc) fun _ => h.part hc
  | error hm hb =>
    have hclosed : (WorkerConn.finish mask (s.getRequest string2l alloc r, some true)).closed =
        true := by
      simp [WorkerConn.finish]
    exact h.congr hw (fun _ => hidle hb hm) (fun hc' => absurd hc' (by simp [hclosed]))
      fun hc' => absurd hc' (by simp [hclosed])

/-- **One step.** -/
theorem Sound.step (h : Sound s) (ho : Owned string2l all s) {op : Op} (hf : Fires s op)
    (hu : Undivided s op) : Sound (Handed.step string2l s op) := by
  cases op with
  | event mask isQuit alloc r ws =>
    obtain ⟨hc, hout, hin⟩ := hf
    rw [Handed.step, if_neg (by simp [hc])]
    have hy := replies s mask isQuit ws
    unfold WorkerConn.handleEvent
    have hkept : (s.reply mask isQuit ws).1.closed = s.closed := by
      generalize s.reply mask isQuit ws = y at hy
      cases hy <;> rfl
    generalize s.reply mask isQuit ws = y at hy hkept
    have htasks : s.tasks ≠ [] → s.interest.epollout = false := fun ht => by
      by_contra hne
      exact ht (ho.of_armed hc (ho.watched (by simpa using hne))).1
    obtain ⟨h', hidle⟩ := h.reply_part htasks hout hu hy
    obtain ⟨s', _ | b⟩ := y
    · exact h'
    · dsimp only at h' hidle hkept ⊢
      exact h'.request_part (hkept.trans hc) (fun hb => hidle (by rw [hb]))
        (requests string2l s' mask alloc r b)
  | respond resp =>
    rw [Handed.step]
    by_cases ht : s.tasks = []
    · rw [if_pos ht]
      exact h
    rw [if_neg ht]
    have hidle := h.idle ht
    refine ⟨writeResp_inv h.writer hidle resp, ?_, ?_, ?_, fun hb => absurd hidle (not_lt.mpr hb),
      fun _ => hidle, fun hc hin _ => absurd (ho.of_armed hc hin).1 ht,
      fun _ hb => absurd hidle (not_lt.mpr hb)⟩
    · intro r hr
      rcases List.mem_append.mp hr with hr | hr
      · exact h.nonempty r hr
      · rw [List.mem_singleton.mp hr]
        exact hf.1
    · have := hf.2
      show (s.writer.response ++ [resp]).length < 2 ^ 31
      rw [List.length_append, List.length_singleton]
      omega
    · show true = true ↔ s.writer.response ++ [resp] ≠ []
      simp
  | notifyEpoll success =>
    rw [Handed.step, WorkerConn.notifyEpoll]
    by_cases ht : s.tasks = []
    · rw [if_pos ht]
      exact h
    rw [if_neg ht]
    split_ifs <;> exact h.congr rfl (fun _ => h.idle ht) h.silent h.part
  | item =>
    rw [Handed.step, WorkerConn.handleItem]
    split_ifs
    · exact h
    · exact h.congr rfl h.idle h.silent h.part
    · exact h.congr rfl h.idle (fun _ _ hi => by cases hi) fun _ _ => rfl
  | tryResizeBuffer idletime =>
    rw [Handed.step]
    split_ifs
    · exact h
    · exact h.congr rfl h.idle h.silent h.part
  | close => exact h.congr rfl h.idle (fun hc => by cases hc) fun hc => by cases hc

theorem sound_entered (max : ℤ) : Sound (entered max) where
  writer := ⟨rfl, fun _ => rfl, fun hi => absurd hi (by simp [entered]), by simp [entered], rfl⟩
  nonempty := by simp [entered]
  length := by simp [entered]
  reply := by simp [entered]
  busy := by simp [entered]
  idle := by simp [entered]
  silent := fun _ _ _ => rfl
  part := by simp [entered]

theorem arrived_run (string2l : Bytes → ℕ → Option ℤ) : ∀ (ops : List Op) (s : WorkerConn),
    s.arrived <+: (run (step string2l) s ops).arrived
  | [], _ => List.prefix_refl _
  | op :: ops, s => (arrived_step string2l s op).trans (arrived_run string2l ops _)

theorem owned_run (hs : String2lSpec string2l) (hall : ∀ c ∈ all, Short (2 ^ 31) c) :
    ∀ (ops : List Op) {s : WorkerConn}, Owned string2l all s →
    Guarded (step string2l) Fires s ops → (run (step string2l) s ops).arrived <+: stream all →
    Owned string2l all (run (step string2l) s ops)
  | [], _, h, _, _ => h
  | _ :: ops, _, h, hg, ht =>
    owned_run hs hall ops (h.step hs hall hg.1 ((arrived_run string2l ops _).trans ht)) hg.2 ht

theorem sound_run (hs : String2lSpec string2l) (hall : ∀ c ∈ all, Short (2 ^ 31) c) :
    ∀ (ops : List Op) {s : WorkerConn}, Owned string2l all s → Sound s →
    Guarded (step string2l) (fun s op => Fires s op ∧ Undivided s op) s ops →
    (run (step string2l) s ops).arrived <+: stream all → Sound (run (step string2l) s ops)
  | [], _, _, h, _, _ => h
  | _ :: ops, _, ho, h, hg, ht =>
    sound_run hs hall ops (ho.step hs hall hg.1.1 ((arrived_run string2l ops _).trans ht))
      (h.step ho hg.1.1 hg.1.2) hg.2 ht

end Replying

/-- **One at a time.** As long as the connection is open exactly one of these is the case: the
thread watches its events, a task is running, an item is in the pipe, or a task has called
`NotifyEpoll(false)`. While the thread does not watch, all that was read is complete commands, and
they have all been handed to tasks, in order and with their names in lower case. -/
theorem one_owner {string2l : Bytes → ℕ → Option ℤ} (hs : String2lSpec string2l) {max : ℤ}
    (hmax : max ≤ REDIS_MAX_MESSAGE) (all : List Argv) (hall : ∀ c ∈ all, Short (2 ^ 31) c)
    (ops : List Op) (hops : Guarded (step string2l) Fires (entered max) ops)
    (ht : (run (step string2l) (entered max) ops).arrived <+: stream all) :
    let s := run (step string2l) (entered max) ops
    let log := s.reader.redisParser.log
    ¬Stuck s.reader ∧ dealt log <+: all ∧ s.tasks <:+ batches log ∧
      (s.closed = false → s.tasks.length + s.items + s.failed + armed s = 1 ∧
        (armed s = 0 → s.arrived = stream (dealt log) ∧
          (batches log).flatten = (dealt log).map RedisParser.lowerName)) := by
  intro s log
  have h : Owned string2l all s := owned_run hs hall ops (owned_entered hmax) hops ht
  refine ⟨h.deals.stuck, h.deals.prefix_all, h.last, fun hc => ⟨h.tokens hc, fun harmed => ?_⟩⟩
  have hin : s.interest.epollin = false := by
    by_contra hne
    rw [armed, if_pos (by simpa using hne)] at harmed
    cases harmed
  obtain ⟨-, -, -, hall'⟩ := h.deals.holds hs hall (h.opened hc) ht
  exact hall' (h.done hc hin)

/-- Two commands in one batch, and the answers. -/
theorem one_owner_pair :
    let ops : List Op := [
      .event { epollin := true } false true (.data (bytes "*1\r\n$4\r\nPING\r\n*2\r\n$3\r\nGE")) [],
      .event { epollin := true } false true (.data (bytes "T\r\n$1\r\na\r\n")) [],
      .respond (bytes "+PONG\r\n"), .respond (bytes "+b\r\n"), .notifyEpoll true]
    let s := run (step Redis.Wire.string2l) (entered REDIS_MAX_MESSAGE) ops
    let log := s.reader.redisParser.log
    ¬Stuck s.reader ∧ dealt log <+: [[bytes "PING"], [bytes "GET", bytes "a"]] ∧
      s.tasks <:+ batches log ∧
      (s.closed = false → s.tasks.length + s.items + s.failed + armed s = 1 ∧
        (armed s = 0 → s.arrived = stream (dealt log) ∧
          (batches log).flatten = (dealt log).map RedisParser.lowerName)) :=
  one_owner string2l_spec le_rfl _
    (by
      intro c hc
      simp only [List.mem_cons, List.not_mem_nil, or_false] at hc
      rcases hc with rfl | rfl <;> exact ⟨by decide, by decide +kernel⟩)
    _ (by decide +kernel) (by decide +kernel)

/-- **Nothing is lost or sent twice**, if no request is read while a part of the replies has been
sent: what has been sent is the first part of what the tasks have written, and as long as the
connection is open the rest is waited for: the thread watches `EPOLLOUT`, a task is running, an item
is in the pipe, or a task has called `NotifyEpoll(false)`. -/
theorem replies_exact {string2l : Bytes → ℕ → Option ℤ} (hs : String2lSpec string2l) {max : ℤ}
    (hmax : max ≤ REDIS_MAX_MESSAGE) (all : List Argv) (hall : ∀ c ∈ all, Short (2 ^ 31) c)
    (ops : List Op) (hops : Guarded (step string2l) (fun s op => Fires s op ∧ Undivided s op)
      (entered max) ops)
    (ht : (run (step string2l) (entered max) ops).arrived <+: stream all) :
    let s := run (step string2l) (entered max) ops
    s.writer.fault = none ∧ ∃ rest, s.writer.accepted.flatten = s.writer.sent ++ rest ∧
      (s.closed = false → rest ≠ [] → s.interest.epollout = true ∨ s.tasks ≠ [] ∨ 0 < s.items ∨
        0 < s.failed) := by
  intro s
  have hfires : Guarded (step string2l) Fires (entered max) ops :=
    guarded_of_inv (fun _ => True) (fun _ _ _ _ => trivial) (fun _ _ _ h => h.1) trivial hops
  have ho : Owned string2l all s := owned_run hs hall ops (owned_entered hmax) hfires ht
  have h : Sound s := sound_run hs hall ops (owned_entered hmax) (sound_entered max) hops ht
  refine ⟨h.writer.fault, pending s.writer, h.writer.balance.symm, fun hc hrest => ?_⟩
  by_contra hnone
  simp only [not_or, not_not, Nat.not_lt, Nat.le_zero, Bool.not_eq_true] at hnone
  obtain ⟨hout, htasks, hitems, hfailed⟩ := hnone
  have htokens := ho.tokens hc
  have hin : s.interest.epollin = true := by
    by_contra hne
    rw [armed, if_neg hne, htasks, hitems, hfailed] at htokens
    cases htokens
  have hidle : s.writer.iovIdx < 0 := by
    by_contra hbusy
    rw [h.part hc (not_lt.mp hbusy)] at hout
    cases hout
  exact hrest (by rw [pending, if_pos hidle, h.silent hc hin hout]; rfl)

theorem replies_exact_part :
    let ops : List Op := [
      .event { epollin := true } false true (.data (bytes "*1\r\n$4\r\nPING\r\n")) [],
      .respond (bytes "+PONG\r\n"), .notifyEpoll true, .item,
      .event { epollin := true, epollout := true } false true .eagain [⟨3, -1, .eagain⟩]]
    let s := run (step Redis.Wire.string2l) (entered REDIS_MAX_MESSAGE) ops
    s.writer.fault = none ∧ ∃ rest, s.writer.accepted.flatten = s.writer.sent ++ rest ∧
      (s.closed = false → rest ≠ [] → s.interest.epollout = true ∨ s.tasks ≠ [] ∨ 0 < s.items ∨
        0 < s.failed) :=
  replies_exact string2l_spec le_rfl [[bytes "PING"]]
    (by
      intro c hc
      rw [List.mem_singleton] at hc
      rw [hc]
      exact ⟨by decide, by decide +kernel⟩)
    _ (by decide +kernel) (by decide +kernel)

/-- A request that is read between a part of a reply and the rest: the answer to it is lost, and the
thread waits for requests. -/
theorem not_replies_exact :
    let ops : List Op := [
      .event { epollin := true } false true (.data (bytes "*1\r\n$4\r\nPING\r\n")) [],
      .respond (bytes "$16\r\n0123456789abcdef\r\n"), .notifyEpoll true, .item,
      .event { epollin := true, epollout := true } false true .eagain [⟨3, -1, .eagain⟩],
      .event { epollin := true } false true (.data (bytes "*1\r\n$4\r\nPING\r\n")) [],
      .respond (bytes "+PONG\r\n"), .notifyEpoll true, .item,
      .event { epollout := true } false true .eagain [⟨30, 20, .eagain⟩]]
    let s := run (step Redis.Wire.string2l) (entered REDIS_MAX_MESSAGE) ops
    Guarded (step Redis.Wire.string2l) Fires (entered REDIS_MAX_MESSAGE) ops ∧
      s.writer.sent ≠ s.writer.accepted.flatten ∧ s.closed = false ∧
      s.interest = { epollin := true } ∧ s.tasks = [] ∧ s.items = 0 ∧ s.failed = 0 := by
  decide +kernel

/-! ### The thread -/

/-- What the connection answers during an event. -/
def outcome (string2l : Bytes → ℕ → Option ℤ) (s : WorkerConn) (isQuit alloc : Bool)
    (r : ReadResult) (ws : List Writev) : Outcome where
  isReply := s.writer.isReply
  write := (s.writer.sendReply ws).2
  isQuit := isQuit
  read := readStatus (Redis.Reading.step string2l s.reader (.getRequest alloc r)).status

/-- The request part and the end of an event are the thread's. -/
theorem closed_finish {string2l : Bytes → ℕ → Option ℤ} {s : WorkerConn} (hc : s.closed = false)
    (mask : Mask) (alloc b : Bool) (r : ReadResult) (o : Outcome)
    (ho : o.read = readStatus (Redis.Reading.step string2l s.reader (.getRequest alloc r)).status) :
    (WorkerConn.finish mask (s.request string2l mask alloc r b)).closed =
      match WorkerThread.request mask o b with
      | none => false
      | some shouldClose => mask.epollerr || mask.epollhup || shouldClose := by
  have hc' : (s.getRequest string2l alloc r).closed = false := hc
  have hy := requests string2l s mask alloc r b
  change o.read = readStatus (s.getRequest string2l alloc r).reader.status at ho
  generalize s.getRequest string2l alloc r = s' at hc' hy ho
  generalize s.request string2l mask alloc r b = y at hy
  unfold WorkerThread.request
  cases hy with
  | skip h =>
    rw [if_neg fun hif => ?_]
    · rfl
    · rw [Bool.and_eq_true] at hif
      rw [h hif.2] at hif
      exact absurd hif.1 (by simp)
  | all hm hb hst =>
    rw [if_pos (by simp [hm, hb]), ho, hst]
    rfl
  | half hm hb hst =>
    rw [if_pos (by simp [hm, hb]), ho, hst]
    exact hc'
  | error hm hb h1 h2 =>
    rw [if_pos (by simp [hm, hb]), ho]
    obtain ⟨h3, h4⟩ := (readStatus_open _).mpr ⟨h1, h2⟩
    generalize readStatus s'.reader.status = st at h3 h4
    rcases st with _ | _ | _ | _ | _ | _ | _ | _
    · exact absurd rfl h4
    · exact absurd rfl h3
    all_goals rfl

/-- **The event closes the connection exactly when the thread does** that is given what the
connection answers. -/
theorem closed_handleEvent (string2l : Bytes → ℕ → Option ℤ) (s : WorkerConn)
    (hc : s.closed = false) (mask : Mask) (isQuit alloc : Bool) (r : ReadResult)
    (ws : List Writev) : (s.handleEvent string2l mask isQuit alloc r ws).closed =
      WorkerThread.closes mask (outcome string2l s isQuit alloc r ws) := by
  obtain ⟨o, ho⟩ : ∃ o, outcome string2l s isQuit alloc r ws = o := ⟨_, rfl⟩
  have hreply : o.isReply = s.writer.isReply := by rw [← ho, outcome]
  have hquit : o.isQuit = isQuit := by rw [← ho, outcome]
  have hread : o.read =
      readStatus (Redis.Reading.step string2l s.reader (.getRequest alloc r)).status := by
    rw [← ho, outcome]
  have hwrite : ∀ {x}, s.writer.sendReply ws = x → o.write = x.2 := by
    intro x hx
    rw [← ho, outcome, hx]
  rw [ho]
  unfold WorkerThread.closes WorkerThread.reply WorkerConn.handleEvent
  have hy := replies s mask isQuit ws
  generalize s.reply mask isQuit ws = y at hy
  rw [hreply, hquit]
  cases hy with
  | skip h =>
    rw [if_neg (by simpa using h), Option.bind_some]
    exact closed_finish hc mask alloc false r o hread
  | all hm hr hx =>
    rw [if_pos (by simp [hm, hr]), hwrite hx]
    refine closed_finish ?_ mask alloc isQuit r o ?_
    · exact hc
    · exact hread
  | half hm hr hx =>
    rw [if_pos (by simp [hm, hr]), hwrite hx]
    exact hc
  | error hm hr hx =>
    rw [if_pos (by simp [hm, hr]), hwrite hx]
    refine closed_finish ?_ mask alloc true r o ?_
    · exact hc
    · exact hread

end Pink.Server.Handed
