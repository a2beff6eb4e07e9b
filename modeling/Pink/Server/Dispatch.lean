import Pink.Lib.RoundRobin
import Pink.Server.Threads

/-! # The dispatcher and its workers

A `DispatchThread` accepts connections and hands each of them to one of its `WorkerThread`s through
the pipe of the worker's epoll object. Other threads move connections out of a worker, into one
again, and kill connections. All of them share the descriptors of the process, so that a number that
was closed may be returned by a later `accept` and be handed to another worker.

A step is one access to what the threads share, with what its thread does by itself up to the next
one: a section under a lock, an access to `last_thread_`, or a call of `accept`, `close`,
`epoll_wait` or `epoll_ctl`, of `read` or of `write` on a pipe. Only `PinkDelEvent` is one step with
what comes behind it. The items that `NotifyEpoll` puts into a pipe are not part of it.

`last_thread_` is read and written without a lock. If no hand-out begins while another one is in
progress, what a worker has read from its pipe and what is still in it is every `work_num_`-th of
the items that were handed out, in their order (`round_robin`); two hand-outs that overlap may go to
one worker (`not_round_robin`). -/

namespace Pink.Server.Dispatch

open Pink.Redis.Wire Pink.Lib.Runs Pink.Lib.RoundRobin Pink.Server.Conns
open Pink.Server.Threads (Setup Mask Outcome touch)
open Pink.Server.Threads.WorkerThread (closes touches)

inductive NotifyType
  | kNotiConnect | kNotiClose | kNotiEpollout | kNotiEpollin | kNotiEpolloutAndEpollin | kNotiWrite
  | kNotiWait
  deriving DecidableEq, Repr

structure PinkItem where
  fd : ℤ
  ipPort : Bytes
  notifyType : NotifyType := .kNotiConnect
  conn : Option Conn := none
  deriving DecidableEq, Repr

/-- The constructor: the process ends if the address does not fit into `ip_port_`, and `ip_port()`
gives it up to its first NUL. -/
def PinkItem.new (fd : ℤ) (ipPort : Bytes) (type : NotifyType) (conn : Option Conn) :
    Option PinkItem :=
  if ipPort.length < 16 + 27 then some ⟨fd, ipPort.takeWhile (· ≠ 0), type, conn⟩ else none

/-! ### A worker -/

/-- How far a worker is. -/
inductive WorkerPc
  /-- In front of `DoCronTask`, `PinkPoll`, the next item or the next event. -/
  | top
  /-- Behind `conns_[ti.fd()] = tc`, in front of `PinkAddEvent`. -/
  | adding (tc : Conn)
  /-- In front of the `conns_.erase(fd)` at the end of an event. -/
  | erasing (fd : ℤ)
  /-- Behind the section of `DoCronTask`, or of `Cleanup` if `exits`, with the connections that are
  still to be closed. -/
  | closing (toClose toTimeout : List Conn) (exits : Bool)
  | exited
  deriving DecidableEq, Repr

/-- A `WorkerThread`: its pipe, with the vector `bb` of what was read from it and not yet handled,
the items it has handled, its connections, and the events that `PinkPoll` has reported and that are
not yet handled. -/
structure Worker where
  pipe : List PinkItem := []
  taken : List PinkItem := []
  state : ServerState := {}
  pc : WorkerPc := .top
  fired : List Conn := []

/-- `PinkAddEvent`; it fails if the descriptor is not open or has been added. -/
def addEvent (opened : Finset ℤ) (s : ServerState) (c : Conn) : ServerState :=
  if c.fd ∉ opened ∨ ∃ c' ∈ s.registered, c'.fd = c.fd then s
  else { s with registered := insert c s.registered }

/-- `PinkModEvent`; it fails if the descriptor has not been added, and it replaces the pointer. -/
def modEvent (s : ServerState) (c : Conn) : ServerState :=
  if ∃ c' ∈ s.registered, c'.fd = c.fd then
    { s with registered := insert c (s.registered.filter fun c' => c'.fd ≠ c.fd) }
  else s

/-- `conns_[conn->fd()] = conn`. -/
def put (s : ServerState) (c : Conn) : ServerState :=
  { s with conns := s.conns.insert c.fd c, entered := s.entered ++ [c] }

/-- `NewPinkConn` gives nothing, or `SetNonblock` fails: the descriptor is not closed. -/
def leaves : Setup → Bool
  | .null | .blocking => true
  | .noSSL | .ok => false

namespace Worker

/-- `WorkerThread::MoveConnIn` of an item: `Register` writes it to the pipe. -/
def moveConnIn (w : Worker) (ti : PinkItem) : Worker × Bool :=
  ({ w with pipe := w.pipe ++ [ti] }, true)

/-- An item with `kNotiConnect`, up to the map; with the descriptors that are closed. -/
def handleConnect (w : Worker) (ti : PinkItem) (setup : Setup) (now : ℤ) : Worker × List ℤ :=
  let (tc, s) := w.state.newPinkConn ti.fd ti.ipPort now
  match setup with
  | .null => (w, [])
  | .blocking => ({ w with state := s }, [])
  | .noSSL => ({ w with state := s.closeFd tc }, [tc.fd])
  | .ok => ({ w with state := put s tc, pc := .adding tc }, [])

/-- The next item; for a new connection, `setup` is how it goes. -/
def handleItem (w : Worker) (opened : Finset ℤ) (setup : Setup) (now : ℤ) : Worker × List ℤ :=
  match w.pc, w.pipe with
  | .top, ti :: pipe =>
    let w := { w with pipe := pipe, taken := w.taken ++ [ti] }
    match ti.notifyType, ti.conn with
    | .kNotiConnect, _ => w.handleConnect ti setup now
    | .kNotiWait, some c => ({ w with state := addEvent opened w.state c }, [])
    | .kNotiEpollout, some c | .kNotiEpollin, some c | .kNotiEpolloutAndEpollin, some c =>
      ({ w with state := modEvent w.state c }, [])
    | _, _ => (w, [])
  | _, _ => (w, [])

/-- The descriptor of the next item if the worker forgets it. -/
def lost (w : Worker) (setup : Setup) : List ℤ :=
  match w.pc, w.pipe with
  | .top, ti :: _ => if ti.notifyType = .kNotiConnect ∧ leaves setup then [ti.fd] else []
  | _, _ => []

/-- The `PinkAddEvent` of a new connection. -/
def add (w : Worker) (opened : Finset ℤ) : Worker :=
  match w.pc with
  | .adding tc => { w with state := addEvent opened w.state tc, pc := .top }
  | _ => w

/-- `PinkPoll` reports events of these connections. -/
def poll (w : Worker) (fired : List Conn) : Worker :=
  if w.pc = .top ∧ w.fired = [] ∧ fired.Nodup ∧ ∀ c ∈ fired, c ∈ w.state.registered then
    { w with fired := fired }
  else w

/-- The next event, up to the `close`. epoll holds a plain pointer to the connection, which may be
gone when it is not in the map any more. -/
def event (w : Worker) (mask : Mask) (o : Outcome) (now : ℤ) : Worker × List ℤ :=
  match w.pc, w.fired with
  | .top, c :: fired =>
    let w := { w with fired := fired }
    if ¬w.state.Has c then ({ w with state := { w.state with crashed := true } }, [])
    else if c ∈ w.state.waitingDel then
      ({ w with
        state := { w.state with registered := w.state.registered.erase c }
        pc := .erasing c.fd }, [])
    else
      let s := if touches mask o then touch w.state c now else w.state
      if closes mask o then ({ w with state := s.closeFd c, pc := .erasing c.fd }, [c.fd])
      else ({ w with state := s }, [])
  | _, _ => (w, [])

/-- The end of an event. -/
def erase (w : Worker) : Worker :=
  match w.pc with
  | .erasing fd => { w with state := w.state.erase fd, pc := .top }
  | _ => w

/-- The section of `DoCronTask`. -/
def doCronTask (w : Worker) (now : ℤ) : Worker :=
  if w.pc = .top ∧ w.fired = [] then
    if kKillAllConnsTask ∈ w.state.deletingConnIpport then
      { w with state := { w.state with conns := ∅, deletingConnIpport := ∅ } }
    else
      let (s, toClose, toTimeout) :=
        ServerState.cronLoop true now w.state.conns.toList w.state [] []
      { w with state := s, pc := .closing toClose toTimeout false }
  else w

/-- The section of `Cleanup`. -/
def cleanup (w : Worker) : Worker :=
  if w.pc = .top ∧ w.fired = [] then
    { w with
      state := { w.state with conns := ∅ }
      pc := .closing (w.state.conns.toList.map Prod.snd) [] true }
  else w

/-- The next `CloseFd` of `DoCronTask` or `Cleanup`, or its return. -/
def closeNext (w : Worker) : Worker × List ℤ :=
  match w.pc with
  | .closing (c :: toClose) toTimeout exits =>
    ({ w with state := w.state.closeFd c, pc := .closing toClose toTimeout exits }, [c.fd])
  | .closing [] (c :: toTimeout) exits =>
    ({ w with state := w.state.closeTimedOut c, pc := .closing [] toTimeout exits }, [c.fd])
  | .closing [] [] exits => ({ w with pc := if exits then .exited else .top }, [])
  | _ => (w, [])

/-- The section of `TryKillConn` under `rwlock_`, and whether the other one follows. -/
def findKill (w : Worker) (ipPort : Bytes) : Worker × Bool :=
  if ipPort = kKillAllConnsTask then (w, true)
  else
    match w.state.conns.toList.find? fun p => p.2.ipPort = ipPort with
    | none => (w, false)
    | some p =>
      ({ w with state := { w.state with waitingDel := w.state.delayedDel true p.2 } }, true)

/-- The section of `TryKillConn` under `killer_mutex_`. -/
def insertKill (w : Worker) (ipPort : Bytes) : Worker :=
  { w with state :=
    { w.state with deletingConnIpport := insert ipPort w.state.deletingConnIpport } }

end Worker

/-! ### The dispatcher and the other threads -/

/-- A connection that was moved out, with what it carries along. -/
structure Moved where
  conn : Conn
  lastInteraction : ℤ
  waitingDel : Bool
  deriving DecidableEq, Repr

/-- How far the dispatcher is. -/
inductive DispatchPc
  | top
  /-- In front of the `close` of a connection that is not wanted. -/
  | closing (fd : ℤ)
  /-- In front of `int next_thread = last_thread_`. -/
  | handling (ti : PinkItem)
  /-- In the loop of `HandleNewConn`. -/
  | finding (ti : PinkItem) (cnt nextThread : ℕ)
  /-- In front of `last_thread_ = (next_thread + 1) % work_num_`. -/
  | found (nextThread : ℕ)
  deriving DecidableEq, Repr

/-- How far a thread is with a call of `MoveConnIn`. -/
inductive CallPc (n : ℕ)
  | none
  /-- In front of `worker_thread_[last_thread_]`. -/
  | called (m : Moved) (type : NotifyType)
  | chosen (m : Moved) (type : NotifyType) (i : Fin n)
  /-- Behind `Register`, in front of `conns_[conn->fd()] = conn`. -/
  | registered (i : Fin n) (conn : Conn)
  | inserted
  /-- It has read `last_thread_` again. -/
  | storing (lastThread : ℕ)
  deriving DecidableEq, Repr

/-- A `DispatchThread` with `n` workers, and `k` threads that call its `MoveConnIn`. -/
structure DispatchThread (n k : ℕ) where
  lastThread : ℕ := 0
  pc : DispatchPc := .top
  workers : Fin n → Worker
  callers : Fin k → CallPc n := fun _ => .none
  /-- The calls of `TryKillConn` between their two sections. -/
  killing : List (Fin n × Bytes) := []
  /-- The descriptors of accepted connections that are open. -/
  opened : Finset ℤ := ∅
  /-- The connections that are with the caller of `MoveConnOut`. -/
  outside : List Moved := []
  /-- The descriptors of connections that could not be set up and were not closed. -/
  leaked : List ℤ := []
  /-- A check of `TERARK_VERIFY` has failed, or an array was accessed out of its bounds. -/
  aborted : Bool := false
  /-- A descriptor was closed that was not open. -/
  stale : Bool := false
  /-- The items given to workers. -/
  handed : List PinkItem := []

/-- What `accept` and the checks behind it give: `ip` is the address as the two `AccessHandle`s
leave it, if neither refuses. -/
structure Accepted where
  fd : ℤ
  noDelay : Bool := true
  ip : Option Bytes
  port : ℕ
  deriving DecidableEq, Repr

variable {n k : ℕ}

namespace DispatchThread

def setWorker (d : DispatchThread n k) (i : Fin n) (w : Worker) : DispatchThread n k :=
  { d with workers := Function.update d.workers i w }

def setCaller (d : DispatchThread n k) (t : Fin k) (pc : CallPc n) : DispatchThread n k :=
  { d with callers := Function.update d.callers t pc }

def close (d : DispatchThread n k) (fd : ℤ) : DispatchThread n k :=
  { d with opened := d.opened.erase fd, stale := d.stale || decide (fd ∉ d.opened) }

/-- A step of worker `i`; what it has closed is closed for the process. -/
def onWorker (d : DispatchThread n k) (i : Fin n) (x : Worker × List ℤ) : DispatchThread n k :=
  x.2.foldl close (d.setWorker i x.1)

/-- Worker `i` gets an item. -/
def hand (d : DispatchThread n k) (i : Fin n) (ti : PinkItem) : DispatchThread n k :=
  { d.setWorker i ((d.workers i).moveConnIn ti).1 with handed := d.handed ++ [ti] }

/-! ### New connections -/

/-- `HandleNewConn`, up to its first access to `last_thread_`. -/
def handleNewConn (d : DispatchThread n k) (connfd : ℤ) (ipPort : Bytes) : DispatchThread n k :=
  match PinkItem.new connfd ipPort .kNotiConnect none with
  | none => { d with aborted := true }
  | some ti => { d with pc := .handling ti }

/-- An event of a listening descriptor, in `ServerThread::ThreadMain`. `accept` returns only
descriptors that are not open. -/
def accept (d : DispatchThread n k) (a : Accepted) : DispatchThread n k :=
  if d.pc ≠ .top ∨ a.fd ∈ d.opened then d
  else
    let d := { d with opened := insert a.fd d.opened }
    if !a.noDelay then { d with pc := .closing a.fd }
    else
      match a.ip with
      | none => { d with pc := .closing a.fd }
      | some ip => d.handleNewConn a.fd (ip ++ ch ':' :: decimalNat a.port)

/-- The next step of the dispatcher. -/
def dispatch (d : DispatchThread n k) : DispatchThread n k :=
  match d.pc with
  | .top => d
  | .closing fd => { d.close fd with pc := .top }
  | .handling ti => { d with pc := .finding ti 0 d.lastThread }
  | .finding ti cnt nextThread =>
    if cnt < n then
      if h : nextThread < n then
        if ((d.workers ⟨nextThread, h⟩).moveConnIn ti).2 then
          { d.hand ⟨nextThread, h⟩ ti with pc := .found nextThread }
        else { d with pc := .finding ti (cnt + 1) ((nextThread + 1) % n) }
      else { d with aborted := true }
    else { d with pc := .closing ti.fd }
  | .found nextThread => { d with lastThread := (nextThread + 1) % n, pc := .top }

/-! ### Moving and killing -/

def findOutside (d : DispatchThread n k) (fd : ℤ) : Option Moved :=
  d.outside.find? fun m => m.conn.fd = fd

/-- The section of `WorkerThread::MoveConnOut`, which `DispatchThread::MoveConnOut` calls for one
worker after the other. -/
def moveConnOut (d : DispatchThread n k) (i : Fin n) (fd : ℤ) : DispatchThread n k :=
  let s := (d.workers i).state
  match s.conns[fd]? with
  | none => d
  | some c =>
    { d.setWorker i { d.workers i with state := s.moveConnOut fd } with
      outside := d.outside ++ [⟨c, s.lastInteraction c.id, c ∈ s.waitingDel⟩] }

/-- A thread calls `MoveConnIn` for a connection that was moved out. -/
def moveConnIn (d : DispatchThread n k) (t : Fin k) (fd : ℤ) (type : NotifyType) :
    DispatchThread n k :=
  match d.callers t, d.findOutside fd with
  | .none, some m => { d.setCaller t (.called m type) with outside := d.outside.erase m }
  | _, _ => d

/-- A connection gets a new number: it stands for its stay with one worker. -/
def renew (s : ServerState) (m : Moved) : Conn × ServerState :=
  let (c, s) := s.newPinkConn m.conn.fd m.conn.ipPort m.lastInteraction
  (c, { s with waitingDel := if m.waitingDel then insert c s.waitingDel else s.waitingDel })

/-- The next step of a call of `MoveConnIn`. -/
def call (d : DispatchThread n k) (t : Fin k) : DispatchThread n k :=
  match d.callers t with
  | .none => d
  | .called m type =>
    if h : d.lastThread < n then d.setCaller t (.chosen m type ⟨d.lastThread, h⟩)
    else { d with aborted := true }
  | .chosen m type i =>
    let (c, s) := renew (d.workers i).state m
    match PinkItem.new m.conn.fd m.conn.ipPort type (some c) with
    | none => { d with aborted := true }
    | some ti => ((d.setWorker i { d.workers i with state := s }).hand i ti).setCaller t
        (.registered i c)
  | .registered i c =>
    (d.setWorker i { d.workers i with state := put (d.workers i).state c }).setCaller t .inserted
  | .inserted => d.setCaller t (.storing d.lastThread)
  | .storing lastThread =>
    { d.setCaller t .none with lastThread := (lastThread + 1) % n }

/-- The caller of `MoveConnOut` closes a connection. -/
def closeOutside (d : DispatchThread n k) (fd : ℤ) : DispatchThread n k :=
  match d.findOutside fd with
  | none => d
  | some m => { d with outside := d.outside.erase m }.close fd

/-- The first section of `TryKillConn`, for one worker. -/
def kill (d : DispatchThread n k) (i : Fin n) (ipPort : Bytes) : DispatchThread n k :=
  let x := (d.workers i).findKill ipPort
  { d.setWorker i x.1 with killing := if x.2 then d.killing ++ [(i, ipPort)] else d.killing }

/-- The second one. -/
def insertKill (d : DispatchThread n k) (j : ℕ) : DispatchThread n k :=
  match d.killing[j]? with
  | none => d
  | some (i, ipPort) =>
    { d.setWorker i ((d.workers i).insertKill ipPort) with killing := d.killing.eraseIdx j }

/-- `conn_num`, when no worker takes a step. -/
def connNum (d : DispatchThread n k) : ℕ := ∑ i, (d.workers i).state.conns.size

end DispatchThread

open DispatchThread

inductive Op (n k : ℕ)
  | accept (a : Accepted)
  | dispatch
  | handleItem (i : Fin n) (setup : Setup) (now : ℤ)
  | add (i : Fin n)
  | poll (i : Fin n) (fired : List Conn)
  | event (i : Fin n) (mask : Mask) (outcome : Outcome) (now : ℤ)
  | erase (i : Fin n)
  | cron (i : Fin n) (now : ℤ)
  | cleanup (i : Fin n)
  | closeNext (i : Fin n)
  | moveConnOut (i : Fin n) (fd : ℤ)
  | moveConnIn (t : Fin k) (fd : ℤ) (type : NotifyType)
  | call (t : Fin k)
  | closeOutside (fd : ℤ)
  | kill (i : Fin n) (ipPort : Bytes)
  | insertKill (j : ℕ)

/-- One step. -/
def step (d : DispatchThread n k) (op : Op n k) : DispatchThread n k :=
  if d.aborted then d
  else
    match op with
    | .accept a => d.accept a
    | .dispatch => d.dispatch
    | .handleItem i setup now =>
      { d.onWorker i ((d.workers i).handleItem d.opened setup now) with
        leaked := d.leaked ++ (d.workers i).lost setup }
    | .add i => d.onWorker i ((d.workers i).add d.opened, [])
    | .poll i fired => d.onWorker i ((d.workers i).poll fired, [])
    | .event i mask o now => d.onWorker i ((d.workers i).event mask o now)
    | .erase i => d.onWorker i ((d.workers i).erase, [])
    | .cron i now => d.onWorker i ((d.workers i).doCronTask now, [])
    | .cleanup i => d.onWorker i ((d.workers i).cleanup, [])
    | .closeNext i => d.onWorker i (d.workers i).closeNext
    | .moveConnOut i fd => d.moveConnOut i fd
    | .moveConnIn t fd type => d.moveConnIn t fd type
    | .call t => d.call t
    | .closeOutside fd => d.closeOutside fd
    | .kill i ipPort => d.kill i ipPort
    | .insertKill j => d.insertKill j

def start (n k : ℕ) (timeout : ℤ) : DispatchThread n k where
  workers := fun _ => { state := { keepaliveTimeout := timeout } }

/-! ### Whose turn it is -/

/-- How far a hand-out is: `chose v` has read `last_thread_`, `gave` has handed the item out and is
still to write it, and `v` is what has been read for that. -/
inductive Phase
  | idle
  | chose (v : ℕ)
  | gave (v : Option ℕ)
  deriving DecidableEq, Repr

def DispatchPc.phase : DispatchPc → Phase
  | .finding _ _ nextThread => .chose nextThread
  | .found nextThread => .gave (some nextThread)
  | .top | .closing _ | .handling _ => .idle

def CallPc.phase : CallPc n → Phase
  | .chosen _ _ i => .chose i
  | .registered _ _ | .inserted => .gave Option.none
  | .storing lastThread => .gave (some lastThread)
  | .none | .called _ _ => .idle

/-- The hand-out of the dispatcher, or of one of the callers of `MoveConnIn`. -/
def phase (d : DispatchThread n k) : Option (Fin k) → Phase
  | none => d.pc.phase
  | some t => (d.callers t).phase

/-- No hand-out is in progress. -/
def Quiet (d : DispatchThread n k) : Prop := ∀ p, phase d p = .idle

instance (d : DispatchThread n k) : Decidable (Quiet d) := inferInstanceAs (Decidable (∀ _, _))

def DispatchPc.begins : DispatchPc → Bool
  | .handling _ => true
  | _ => false

def CallPc.begins : CallPc n → Bool
  | .called _ _ => true
  | _ => false

/-- No hand-out begins while another one is in progress. -/
def Alone (d : DispatchThread n k) : Op n k → Prop
  | .dispatch => d.pc.begins → Quiet d
  | .call t => (d.callers t).begins → Quiet d
  | _ => True

instance (d : DispatchThread n k) (op : Op n k) : Decidable (Alone d op) := by
  cases op <;> unfold Alone <;> infer_instance

section Turns
variable {d d' : DispatchThread n k} {p : Option (Fin k)}

/-- The items a worker has got. -/
def got (d : DispatchThread n k) (i : Fin n) : List PinkItem :=
  (d.workers i).taken ++ (d.workers i).pipe

/-- The worker whose turn it is. -/
def due (d : DispatchThread n k) : ℕ := d.handed.length % n

/-- A hand-out works with the value `last_thread_` still has. -/
def Phase.Sound (n last due : ℕ) : Phase → Prop
  | .idle => True
  | .chose v => v = last ∧ last = due
  | .gave v => (∀ x ∈ v, x = last) ∧ (last + 1) % n = due

/-- Every item that was handed out went to the worker whose turn it was. -/
structure Turns (d : DispatchThread n k) : Prop where
  quiet : Quiet d → d.lastThread = due d
  sound : ∀ p, (phase d p).Sound n d.lastThread (due d)
  alone : ∀ p q, phase d p ≠ .idle → phase d q ≠ .idle → p = q
  got : ∀ i : Fin n, got d i = share n i d.handed

/-- Nothing is handed out, and no hand-out gets further. -/
structure Keeps (d d' : DispatchThread n k) : Prop where
  lastThread : d'.lastThread = d.lastThread
  handed : d'.handed = d.handed
  got : ∀ i, got d' i = got d i
  phase : ∀ p, phase d' p = phase d p

theorem Keeps.refl (d : DispatchThread n k) : Keeps d d := ⟨rfl, rfl, fun _ => rfl, fun _ => rfl⟩

theorem Keeps.trans {d'' : DispatchThread n k} (h : Keeps d d') (h' : Keeps d' d'') :
    Keeps d d'' :=
  ⟨h'.lastThread.trans h.lastThread, h'.handed.trans h.handed,
    fun i => (h'.got i).trans (h.got i), fun p => (h'.phase p).trans (h.phase p)⟩

theorem Turns.of_keeps (h : Turns d) (hk : Keeps d d') : Turns d' := by
  have hdue : due d' = due d := by
    unfold due
    rw [hk.handed]
  refine ⟨fun hq => ?_, fun p => ?_, fun p q hp hq => ?_, fun i => ?_⟩
  · rw [hk.lastThread, hdue]
    exact h.quiet fun p => (hk.phase p).symm.trans (hq p)
  · rw [hk.phase p, hk.lastThread, hdue]
    exact h.sound p
  · rw [hk.phase] at hp hq
    exact h.alone p q hp hq
  · rw [hk.got i, hk.handed]
    exact h.got i

/-- The others have no hand-out in progress when one has, or when there is none. -/
theorem Turns.others (h : Turns d) (hp : phase d p ≠ .idle ∨ Quiet d) (q : Option (Fin k))
    (hq : q ≠ p) : phase d q = .idle := by
  rcases hp with hp | hp
  · by_contra hne
    exact hq (h.alone q p hne hp)
  · exact hp q

/-- One hand-out gets further while the others are not in progress. -/
theorem turns_of_others (hothers : ∀ q, q ≠ p → phase d q = .idle)
    (hsound : (phase d p).Sound n d.lastThread (due d))
    (hidle : phase d p = .idle → d.lastThread = due d)
    (hgot : ∀ i : Fin n, got d i = share n i d.handed) : Turns d where
  quiet hq := hidle (hq p)
  sound q := by
    by_cases hq : q = p
    · rw [hq]; exact hsound
    · rw [hothers q hq]; exact trivial
  alone q q' hq hq' := by
    have hp : ∀ r, phase d r ≠ .idle → r = p := fun r hr => by
      by_contra hne
      exact hr (hothers r hne)
    rw [hp q hq, hp q' hq']
  got := hgot

/-- The hand-outs of a state in which caller `t` is at `pc`. -/
theorem phase_setCaller (d : DispatchThread n k) (t : Fin k) (pc : CallPc n)
    (q : Option (Fin k)) :
    phase (d.setCaller t pc) q = if q = some t then pc.phase else phase d q := by
  cases q with
  | none => rfl
  | some u =>
    unfold phase setCaller
    by_cases hu : u = t
    · subst hu; simp
    · simp [hu]

/-! ### Steps that hand nothing out -/

theorem keeps_setWorker {i : Fin n} {w : Worker}
    (hw : w.taken ++ w.pipe = (d.workers i).taken ++ (d.workers i).pipe) :
    Keeps d (d.setWorker i w) where
  lastThread := rfl
  handed := rfl
  got j := by
    unfold Dispatch.got setWorker
    by_cases h : j = i
    · subst h; simpa using hw
    · simp [h]
  phase p := by cases p <;> rfl

theorem keeps_foldl_close (fds : List ℤ) :
    ∀ d : DispatchThread n k, Keeps d (fds.foldl DispatchThread.close d) := by
  induction fds with
  | nil => exact fun d => Keeps.refl d
  | cons fd fds ih =>
    intro d
    have hc : Keeps d (d.close fd) := ⟨rfl, rfl, fun _ => rfl, fun p => by cases p <;> rfl⟩
    exact hc.trans (ih _)

theorem keeps_onWorker {i : Fin n} {x : Worker × List ℤ}
    (hw : x.1.taken ++ x.1.pipe = (d.workers i).taken ++ (d.workers i).pipe) :
    Keeps d (d.onWorker i x) :=
  (keeps_setWorker hw).trans (keeps_foldl_close _ _)

/-- A worker handles the items of its pipe in their order. -/
theorem got_handleItem (w : Worker) (opened : Finset ℤ) (setup : Setup) (now : ℤ) :
    (w.handleItem opened setup now).1.taken ++ (w.handleItem opened setup now).1.pipe =
      w.taken ++ w.pipe := by
  unfold Worker.handleItem
  split
  case _ ti pipe hpc hpipe =>
    have hmove : (w.taken ++ [ti]) ++ pipe = w.taken ++ w.pipe := by rw [hpipe]; simp
    dsimp only
    split
    · unfold Worker.handleConnect
      cases setup <;> exact hmove
    all_goals exact hmove
  · rfl

theorem got_event (w : Worker) (mask : Mask) (o : Outcome) (now : ℤ) :
    (w.event mask o now).1.taken ++ (w.event mask o now).1.pipe = w.taken ++ w.pipe := by
  unfold Worker.event
  split
  · dsimp only
    split_ifs <;> rfl
  · rfl

theorem got_closeNext (w : Worker) :
    w.closeNext.1.taken ++ w.closeNext.1.pipe = w.taken ++ w.pipe := by
  unfold Worker.closeNext
  split <;> rfl

theorem keeps_moveConnOut (d : DispatchThread n k) (i : Fin n) (fd : ℤ) :
    Keeps d (d.moveConnOut i fd) := by
  unfold DispatchThread.moveConnOut
  dsimp only
  split
  · exact Keeps.refl d
  · have hk : Keeps d (d.setWorker i
        { d.workers i with state := (d.workers i).state.moveConnOut fd }) := keeps_setWorker rfl
    exact hk.trans ⟨rfl, rfl, fun _ => rfl, fun p => by cases p <;> rfl⟩

theorem keeps_kill (d : DispatchThread n k) (i : Fin n) (ipPort : Bytes) :
    Keeps d (d.kill i ipPort) := by
  have hw : ((d.workers i).findKill ipPort).1.taken ++ ((d.workers i).findKill ipPort).1.pipe =
      (d.workers i).taken ++ (d.workers i).pipe := by
    unfold Worker.findKill
    split_ifs
    · rfl
    · split <;> rfl
  have hk : Keeps d (d.setWorker i ((d.workers i).findKill ipPort).1) := keeps_setWorker hw
  exact hk.trans ⟨rfl, rfl, fun _ => rfl, fun p => by cases p <;> rfl⟩

theorem keeps_insertKill (d : DispatchThread n k) (j : ℕ) : Keeps d (d.insertKill j) := by
  unfold DispatchThread.insertKill
  rcases d.killing[j]? with _ | ⟨i, ipPort⟩
  · exact Keeps.refl d
  · have hk : Keeps d (d.setWorker i ((d.workers i).insertKill ipPort)) := keeps_setWorker rfl
    exact hk.trans ⟨rfl, rfl, fun _ => rfl, fun p => by cases p <;> rfl⟩

theorem keeps_closeOutside (d : DispatchThread n k) (fd : ℤ) : Keeps d (d.closeOutside fd) := by
  unfold DispatchThread.closeOutside
  rcases d.findOutside fd with _ | m
  · exact Keeps.refl d
  · exact ⟨rfl, rfl, fun _ => rfl, fun p => by cases p <;> rfl⟩

/-- A new connection is not handed out before `last_thread_` is read. -/
theorem keeps_accept (d : DispatchThread n k) (a : Accepted) : Keeps d (d.accept a) := by
  have hpc : ∀ (opened : Finset ℤ) (pc : DispatchPc), d.pc = .top → pc.phase = .idle →
      Keeps d { d with opened := opened, pc := pc } := by
    intro opened pc htop hidle
    refine ⟨rfl, rfl, fun _ => rfl, fun p => ?_⟩
    cases p with
    | none => exact hidle.trans (congrArg DispatchPc.phase htop).symm
    | some t => rfl
  unfold DispatchThread.accept
  by_cases htop : d.pc = .top
  swap
  · rw [if_pos (Or.inl htop)]
    exact Keeps.refl d
  split_ifs
  · exact Keeps.refl d
  · exact hpc _ _ htop rfl
  · split
    · exact hpc _ _ htop rfl
    · unfold DispatchThread.handleNewConn
      split
      · exact ⟨rfl, rfl, fun _ => rfl, fun p => by cases p <;> rfl⟩
      · exact hpc _ _ htop rfl

theorem keeps_moveConnIn (d : DispatchThread n k) (t : Fin k) (fd : ℤ) (type : NotifyType) :
    Keeps d (d.moveConnIn t fd type) := by
  unfold DispatchThread.moveConnIn
  split
  case _ m hnone _ =>
    refine ⟨rfl, rfl, fun _ => rfl, fun p => ?_⟩
    have hp := phase_setCaller d t (.called m type) p
    cases p with
    | none => rfl
    | some u =>
      refine hp.trans ?_
      by_cases hu : u = t
      · subst hu
        rw [if_pos rfl]
        exact (congrArg CallPc.phase hnone).symm
      · rw [if_neg (by simpa using hu)]
  · exact Keeps.refl d

/-! ### Steps of a hand-out -/

/-- The next item goes to the worker whose turn it is. -/
theorem got_hand (h : Turns d) {i : Fin n} (hi : i = due d) (ti : PinkItem) (j : Fin n) :
    got (d.hand i ti) j = share n j (d.hand i ti).handed := by
  have hg := h.got j
  unfold DispatchThread.hand
  rw [share_snoc, ← hg]
  unfold due at hi
  rw [← hi]
  unfold Dispatch.got DispatchThread.setWorker
  by_cases hj : j = i
  · subst hj; simp [Worker.moveConnIn]
  · rw [if_neg fun he => hj (Fin.ext he).symm]; simp [hj]

theorem due_hand (d : DispatchThread n k) (i : Fin n) (ti : PinkItem) :
    due (d.hand i ti) = (due d + 1) % n := by
  unfold due DispatchThread.hand
  rw [List.length_append, List.length_singleton, Nat.mod_add_mod]

/-- The dispatcher has handed the item out, and `last_thread_` is still the same. -/
theorem sound_hand {i : Fin n} {t : PinkItem} {v : Option ℕ} (hv : ∀ x ∈ v, x = d.lastThread)
    (hlast : d.lastThread = due d) :
    (Phase.gave v).Sound n d.lastThread (due (d.hand i t)) := by
  rw [due_hand, ← hlast]
  exact ⟨hv, rfl⟩

theorem Turns.dispatch (h : Turns d) (ha : Alone d .dispatch) : Turns d.dispatch := by
  have hsound := h.sound none
  have hphase : phase d none = d.pc.phase := rfl
  unfold DispatchThread.dispatch
  split
  · exact h
  case _ fd hpc =>
    refine h.of_keeps ⟨rfl, rfl, fun _ => rfl, fun p => ?_⟩
    cases p with
    | none => exact (congrArg DispatchPc.phase hpc).symm
    | some t => rfl
  case _ ti hpc =>
    have hq : Quiet d := ha (by rw [hpc]; rfl)
    refine turns_of_others (p := none) (fun q hne => ?_) ⟨rfl, h.quiet hq⟩
      (fun hi => by cases hi) h.got
    cases q with
    | none => exact absurd rfl hne
    | some t => exact hq (some t)
  case _ ti cnt nextThread hpc =>
    have hothers := h.others (p := none) (Or.inl (by simp [hphase, hpc, DispatchPc.phase]))
    rw [hphase, hpc] at hsound
    obtain ⟨hnext, hlast⟩ := hsound
    split_ifs with hcnt hlt hfull
    · -- the item goes into the pipe of the worker that was found
      refine turns_of_others (p := none) (fun q hne => ?_)
        (sound_hand (i := ⟨nextThread, hlt⟩) (t := ti) ?_ hlast) (fun hi => by cases hi)
        (got_hand h (hnext.trans hlast) ti)
      · cases q with
        | none => exact absurd rfl hne
        | some t => exact hothers (some t) hne
      · intro x hx
        exact (Option.some.inj hx).symm.trans hnext
    · exact absurd rfl hfull
    · exact h.of_keeps ⟨rfl, rfl, fun _ => rfl, fun p => by cases p <;> rfl⟩
    · -- there is no worker
      refine turns_of_others (p := none) (fun q hne => ?_) trivial (fun _ => hlast) h.got
      cases q with
      | none => exact absurd rfl hne
      | some t => exact hothers (some t) hne
  case _ nextThread hpc =>
    have hothers := h.others (p := none) (Or.inl (by simp [hphase, hpc, DispatchPc.phase]))
    rw [hphase, hpc] at hsound
    obtain ⟨hnext, hdue⟩ := hsound
    rw [← hnext nextThread rfl] at hdue
    refine turns_of_others (p := none) (fun q hne => ?_) trivial (fun _ => hdue) h.got
    cases q with
    | none => exact absurd rfl hne
    | some t => exact hothers (some t) hne

/-- A caller of `MoveConnIn` gets further while the others are not in progress. -/
theorem turns_setCaller {t : Fin k} {pc : CallPc n}
    (hothers : ∀ q, q ≠ some t → phase d q = .idle)
    (hsound : pc.phase.Sound n d.lastThread (due d))
    (hidle : pc.phase = .idle → d.lastThread = due d)
    (hgot : ∀ i : Fin n, got d i = share n i d.handed) : Turns (d.setCaller t pc) := by
  have hphase := phase_setCaller d t pc
  refine turns_of_others (p := some t) (fun q hne => ?_) ?_ (fun hi => ?_) hgot
  · rw [hphase, if_neg hne]
    exact hothers q hne
  · rw [hphase, if_pos rfl]
    exact hsound
  · rw [hphase, if_pos rfl] at hi
    exact hidle hi

theorem Turns.call (h : Turns d) {t : Fin k} (ha : Alone d (.call t)) : Turns (d.call t) := by
  have hsound := h.sound (some t)
  have hphase : phase d (some t) = (d.callers t).phase := rfl
  have haborted : Turns { d with aborted := true } :=
    h.of_keeps ⟨rfl, rfl, fun _ => rfl, fun p => by cases p <;> rfl⟩
  unfold DispatchThread.call
  split
  · exact h
  case _ m type hpc =>
    have hq : Quiet d := ha (by rw [hpc]; rfl)
    split_ifs
    · exact turns_setCaller (fun q _ => hq q) ⟨rfl, h.quiet hq⟩ (fun hi => by cases hi) h.got
    · exact haborted
  case _ m type i hpc =>
    have hothers := h.others (p := some t) (Or.inl (by simp [hphase, hpc, CallPc.phase]))
    rw [hphase, hpc] at hsound
    obtain ⟨hi, hlast⟩ := hsound
    dsimp only
    split
    · exact haborted
    case _ ti _ =>
      have hk : Keeps d (d.setWorker i { d.workers i with
          state := (renew (d.workers i).state m).2 }) := keeps_setWorker rfl
      have hd := h.of_keeps hk
      refine turns_setCaller (fun q hne => ?_) (sound_hand (i := i) (t := ti) (by simp) hlast)
        (fun hi => by cases hi)
        (got_hand hd (hi.trans hlast) ti)
      cases q with
      | none => exact hothers none hne
      | some u => exact hothers (some u) hne
  case _ i c hpc =>
    have hothers := h.others (p := some t) (Or.inl (by simp [hphase, hpc, CallPc.phase]))
    rw [hphase, hpc] at hsound
    have hk : Keeps d (d.setWorker i { d.workers i with state := put (d.workers i).state c }) :=
      keeps_setWorker rfl
    refine turns_setCaller (fun q hne => (hk.phase q).trans (hothers q hne)) hsound
      (fun hi => by cases hi) (h.of_keeps hk).got
  case _ hpc =>
    have hothers := h.others (p := some t) (Or.inl (by simp [hphase, hpc, CallPc.phase]))
    rw [hphase, hpc] at hsound
    exact turns_setCaller hothers ⟨fun x hx => (Option.some.inj hx).symm, hsound.2⟩
      (fun hi => by cases hi) h.got
  case _ lastThread hpc =>
    have hothers := h.others (p := some t) (Or.inl (by simp [hphase, hpc, CallPc.phase]))
    rw [hphase, hpc] at hsound
    obtain ⟨hlast, hdue⟩ := hsound
    rw [← hlast lastThread rfl] at hdue
    refine turns_setCaller (d := { d with lastThread := (lastThread + 1) % n }) (fun q hne => ?_)
      trivial (fun _ => hdue) h.got
    cases q with
    | none => exact hothers none hne
    | some u => exact hothers (some u) hne

theorem Turns.step (h : Turns d) {op : Op n k} (ha : Alone d op) : Turns (step d op) := by
  unfold Dispatch.step
  split_ifs
  · exact h
  cases op with
  | accept a => exact h.of_keeps (keeps_accept d a)
  | dispatch => exact h.dispatch ha
  | handleItem i setup now =>
    have hk : Keeps d (d.onWorker i ((d.workers i).handleItem d.opened setup now)) :=
      keeps_onWorker (got_handleItem _ _ _ _)
    exact h.of_keeps (hk.trans ⟨rfl, rfl, fun _ => rfl, fun p => by cases p <;> rfl⟩)
  | add i =>
    refine h.of_keeps (keeps_onWorker ?_)
    unfold Worker.add
    split <;> rfl
  | poll i fired =>
    refine h.of_keeps (keeps_onWorker ?_)
    unfold Worker.poll
    split_ifs <;> rfl
  | event i mask o now => exact h.of_keeps (keeps_onWorker (got_event _ _ _ _))
  | erase i =>
    refine h.of_keeps (keeps_onWorker ?_)
    unfold Worker.erase
    split <;> rfl
  | cron i now =>
    refine h.of_keeps (keeps_onWorker ?_)
    unfold Worker.doCronTask
    split_ifs <;> rfl
  | cleanup i =>
    refine h.of_keeps (keeps_onWorker ?_)
    unfold Worker.cleanup
    split_ifs <;> rfl
  | closeNext i => exact h.of_keeps (keeps_onWorker (got_closeNext _))
  | moveConnOut i fd => exact h.of_keeps (keeps_moveConnOut d i fd)
  | moveConnIn t fd type => exact h.of_keeps (keeps_moveConnIn d t fd type)
  | call t => exact h.call ha
  | closeOutside fd => exact h.of_keeps (keeps_closeOutside d fd)
  | kill i ipPort => exact h.of_keeps (keeps_kill d i ipPort)
  | insertKill j => exact h.of_keeps (keeps_insertKill d j)

theorem turns_start (n k : ℕ) (timeout : ℤ) : Turns (start n k timeout) where
  quiet _ := (Nat.zero_mod n).symm
  sound p := by cases p <;> exact trivial
  alone p _ hp _ := by cases p <;> exact absurd rfl hp
  got _ := rfl

end Turns

/-- **The workers get the items in turn** when no hand-out begins while another one is in progress:
the `j`-th item of worker `i` is item `j * work_num_ + i` of those handed out, two workers differ by
at most one item, and between two hand-outs `last_thread_` is the worker whose turn it is. -/
theorem round_robin (timeout : ℤ) {ops : List (Op n k)}
    (h : Guarded step Alone (start n k timeout) ops) :
    (∀ (i : Fin n) (j : ℕ), (got (run step (start n k timeout) ops) i)[j]? =
      (run step (start n k timeout) ops).handed[j * n + i]?) ∧
    (∀ i j : Fin n, (got (run step (start n k timeout) ops) i).length ≤
      (got (run step (start n k timeout) ops) j).length + 1) ∧
    (Quiet (run step (start n k timeout) ops) →
      (run step (start n k timeout) ops).lastThread =
        (run step (start n k timeout) ops).handed.length % n) := by
  have ht : Turns (run step (start n k timeout) ops) :=
    run_inv Turns (fun _ _ hd ha => hd.step ha) (turns_start n k timeout) h
  refine ⟨fun i j => ?_, fun i j => ?_, ht.quiet⟩
  · rw [ht.got i]
    exact getElem?_share i.isLt _ j
  · rw [ht.got i, ht.got j]
    exact length_share_le i.isLt j.isLt _

/-- Two connections are handed out and handled, one of them is moved out and in again, and the
dispatcher accepts a third one in the meantime. -/
def inTurn : List (Op 2 1) :=
  [.accept ⟨7, true, some (bytes "a"), 1⟩, .dispatch, .dispatch, .dispatch,
    .accept ⟨8, true, some (bytes "b"), 2⟩, .dispatch, .dispatch, .handleItem 0 .ok 0, .add 0,
    .dispatch, .moveConnOut 0 7, .moveConnIn 0 7 .kNotiWait, .call 0, .call 0,
    .accept ⟨9, true, some (bytes "c"), 3⟩, .call 0, .handleItem 0 .ok 0, .call 0, .call 0,
    .dispatch, .dispatch, .handleItem 1 .ok 1, .dispatch]

theorem round_robin_inTurn :
    (∀ (i : Fin 2) (j : ℕ), (got (run step (start 2 1 60) inTurn) i)[j]? =
      (run step (start 2 1 60) inTurn).handed[j * 2 + i]?) ∧
    (∀ i j : Fin 2, (got (run step (start 2 1 60) inTurn) i).length ≤
      (got (run step (start 2 1 60) inTurn) j).length + 1) ∧
    (Quiet (run step (start 2 1 60) inTurn) → (run step (start 2 1 60) inTurn).lastThread =
      (run step (start 2 1 60) inTurn).handed.length % 2) :=
  round_robin 60 (by decide +kernel)

/-- A caller of `MoveConnIn` reads `last_thread_` while the dispatcher hands a connection out, and
both give their items to worker `1`. -/
def together : List (Op 2 1) :=
  [.accept ⟨7, true, some (bytes "a"), 1⟩, .dispatch, .dispatch, .dispatch, .handleItem 0 .ok 0,
    .add 0, .moveConnOut 0 7, .moveConnIn 0 7 .kNotiWait,
    .accept ⟨8, true, some (bytes "b"), 2⟩, .dispatch, .call 0, .dispatch, .call 0]

theorem not_round_robin : ¬∀ (i : Fin 2) (j : ℕ), (got (run step (start 2 1 60) together) i)[j]? =
    (run step (start 2 1 60) together).handed[j * 2 + i]? := by
  intro h
  have hnone : (got (run step (start 2 1 60) together) 0)[1]? = none := by decide +kernel
  have hsome : (run step (start 2 1 60) together).handed[2]? ≠ none := by decide +kernel
  exact hsome ((h 0 1).symm.trans hnone)

end Pink.Server.Dispatch
