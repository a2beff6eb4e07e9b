import Pink.Server.Threads

/-! # The backend thread

`BackendThread` keeps its connections and the messages still to be sent by descriptor: `conns_` and
`to_send_`. A message is accepted by `Write`, which any thread may call, and is passed to
`WriteResp` by the event loop when it reads the notification that `Write` has sent through the pipe.

A step is what happens between two points at which another thread can get in: a section under `mu_`,
or a system call outside of it. What is left of a call that has been started is part of the state:
`notifies`, the notifications that are still to be sent, `opening` and `failing`, the sockets of
`Connect` calls that are not yet registered or not yet cleaned up, and `pc`, where the event loop is
between closing a descriptor and erasing its connection. -/

namespace Pink.Backend.Thread

open Pink.Redis.Wire Pink.Server.Conns Pink.Server.Threads
open Pink.Redis.Conn (WriteStatus)

def kConnWriteBuf : ℕ := 1024 * 1024 * 100

inductive Status
  | ok
  | corruption (msg : Bytes)
  deriving DecidableEq, Repr

/-- What is sent through the pipe. -/
inductive Notify
  | write (fd : ℤ)
  | close (fd : ℤ)
  deriving DecidableEq, Repr

/-- Where the event loop is. -/
inductive Pc
  | idle
  /-- The connection is to be closed. -/
  | closing (fd : ℤ) (conn : Conn)
  /-- `close` was called. -/
  | closed (fd : ℤ) (conn : Conn)
  /-- `CleanUpConnRemaining` was called. -/
  | cleaned (fd : ℤ) (conn : Conn)
  deriving DecidableEq, Repr

inductive Halt
  /-- The event loop waits for `mu_`, which it holds. -/
  | deadlock
  /-- An iterator is erased that is no longer valid. -/
  | doubleErase
  deriving DecidableEq, Repr

/-- A call of `WriteResp`, with the connection that was registered when the message was accepted. -/
structure Delivery where
  conn : Conn
  msg : Bytes
  owner : Conn
  deriving DecidableEq, Repr

structure BackendThread where
  conns : Std.ExtTreeMap ℤ Conn compare := ∅
  /-- The messages of `to_send_`, each with the connection registered when it was accepted. -/
  toSend : Std.ExtTreeMap ℤ (List (Bytes × Conn)) compare := ∅
  connectingFds : Finset ℤ := ∅
  keepaliveTimeout : ℤ := 60
  lastInteraction : ℕ → ℤ := fun _ => 0
  openFds : Finset ℤ := ∅
  opening : List ℤ := []
  failing : List ℤ := []
  notifies : List Notify := []
  pipe : List Notify := []
  pc : Pc := .idle
  halted : Option Halt := none
  nextId : ℕ := 0
  delivered : List Delivery := []

namespace BackendThread

/-- The messages for a descriptor. -/
def messages (s : BackendThread) (fd : ℤ) : List (Bytes × Conn) := s.toSend.getD fd []

/-- `CleanUpConnRemaining`. -/
def cleanUpConnRemaining (s : BackendThread) (fd : ℤ) : BackendThread :=
  { s with toSend := s.toSend.erase fd }

/-! ### The calls of other threads -/

/-- `Write` up to its notification; `access` is the answer of `AccessHandle`. -/
def write (s : BackendThread) (fd : ℤ) (msg : Bytes) (access : Bool) : BackendThread × Status :=
  match s.conns[fd]? with
  | none => (s, .corruption (decimal fd ++ bytes " cannot find !"))
  | some c =>
    if ¬access then (s, .corruption (c.ipPort ++ bytes " is baned by user!"))
    else
      let strVec := s.messages fd
      let size := (strVec.map fun m => m.1.length).sum
      if size > kConnWriteBuf then
        ({ s with toSend := s.toSend.insert fd strVec },
          .corruption (bytes "Connection buffer over maximum size"))
      else
        ({ s with
          toSend := s.toSend.insert fd (strVec ++ [(msg, c)])
          notifies := s.notifies ++ [.write fd] }, .ok)

/-- `Close` up to its notification. -/
def close (s : BackendThread) (fd : ℤ) : BackendThread × Status :=
  match s.conns[fd]? with
  | none => (s, .ok)
  | some _ => ({ s with notifies := s.notifies ++ [.close fd] }, .ok)

/-- `socket`, in `Connect`. -/
def socket (s : BackendThread) (fd : ℤ) : BackendThread :=
  { s with openFds := insert fd s.openFds, opening := s.opening ++ [fd] }

/-- `connect` fails, and `CloseFd(sockfd)` is called. -/
def connectFailed (s : BackendThread) (fd : ℤ) : BackendThread :=
  { s with
    openFds := s.openFds.erase fd
    opening := s.opening.erase fd
    failing := s.failing ++ [fd] }

/-- `AddConnection`, and `SetWaitConnectOnEpoll` if the connection is in progress; `insert` leaves
an entry that is there as it is. -/
def addConnection (s : BackendThread) (fd : ℤ) (ipPort : Bytes) (inProgress : Bool) (now : ℤ) :
    BackendThread :=
  { s with
    opening := s.opening.erase fd
    conns := s.conns.insertIfNew fd ⟨s.nextId, fd, ipPort⟩
    lastInteraction := Function.update s.lastInteraction s.nextId now
    nextId := s.nextId + 1
    connectingFds := if inProgress then insert fd s.connectingFds else s.connectingFds }

/-! ### The event loop -/

/-- The descriptor between `CleanUpConnRemaining` and `conns_.erase`. -/
def cleanedFd (s : BackendThread) : Option ℤ :=
  match s.pc with
  | .cleaned fd _ => some fd
  | _ => none

/-- One notification in `ProcessNotifyEvents`. `CloseFd` is called with `mu_` held, and locks it. -/
def processNotify (s : BackendThread) : Notify → BackendThread
  | .write fd =>
    match s.conns[fd]? with
    | none => s
    | some c =>
      { s.cleanUpConnRemaining fd with
        delivered := s.delivered ++ (s.messages fd).map fun m => ⟨c, m.1, m.2⟩ }
  | .close fd => { s with openFds := s.openFds.erase fd, halted := some .deadlock }

/-- The connect, reply and request parts of an event: `should_close` behind them, or `none` if the
event is over. -/
def processConnect (connecting connectError : Bool) (mask : Mask) : Bool :=
  connecting && (mask.epollerr || mask.epollhup || connectError)

def reply (mask : Mask) (o : Outcome) (shouldClose : Bool) : Option Bool :=
  if !shouldClose && mask.epollout && o.isReply then
    match o.write with
    | .writeAll => some shouldClose
    | .writeHalf => none
    | .writeError => some true
  else some shouldClose

def request (mask : Mask) (o : Outcome) (shouldClose : Bool) : Option Bool :=
  if !shouldClose && mask.epollin then
    match o.read with
    | .readAll => some shouldClose
    | .readHalf => none
    | _ => some true
  else some shouldClose

def closes (connecting connectError : Bool) (mask : Mask) (o : Outcome) : Bool :=
  match (reply mask o (processConnect connecting connectError mask)).bind (request mask o) with
  | none => false
  | some shouldClose => mask.epollerr || mask.epollhup || shouldClose

/-- `SendReply` or `GetRequest` is called. -/
def touches (connecting connectError : Bool) (mask : Mask) (o : Outcome) : Bool :=
  let shouldClose := processConnect connecting connectError mask
  (!shouldClose && mask.epollout && o.isReply) ||
    (mask.epollin && reply mask o shouldClose = some false)

/-- A readiness event, up to the point where a connection is closed. -/
def connEvent (s : BackendThread) (fd : ℤ) (mask : Mask) (o : Outcome) (connectError : Bool)
    (now : ℤ) : BackendThread :=
  match s.conns[fd]? with
  | none => s
  | some c =>
    let connecting := fd ∈ s.connectingFds
    { s with
      connectingFds := s.connectingFds.erase fd
      lastInteraction := if touches connecting connectError mask o then
          Function.update s.lastInteraction c.id now
        else s.lastInteraction
      pc := if closes connecting connectError mask o then .closing fd c else .idle }

/-- The closing of a connection: `close`, `CleanUpConnRemaining`, `conns_.erase`. -/
def advance (s : BackendThread) : BackendThread :=
  match s.pc with
  | .idle => s
  | .closing fd c => { s with openFds := s.openFds.erase c.fd, pc := .closed fd c }
  | .closed fd c => { s.cleanUpConnRemaining c.fd with pc := .cleaned fd c }
  | .cleaned fd c =>
    { s with
      conns := s.conns.erase fd
      connectingFds := s.connectingFds.erase c.fd
      pc := .idle }

/-- A connection has been idle for too long. -/
def timedOut (s : BackendThread) (now : ℤ) (c : Conn) : Bool :=
  s.keepaliveTimeout > 0 && now - s.lastInteraction c.id > s.keepaliveTimeout

/-- The first connection that is timed out is erased by its descriptor, and then once more by the
iterator. -/
def doCronTask (s : BackendThread) (now : ℤ) : BackendThread :=
  match s.conns.toList.find? fun p => s.timedOut now p.2 with
  | none => s
  | some (_, c) =>
    { s with
      openFds := s.openFds.erase c.fd
      conns := s.conns.erase c.fd
      connectingFds := s.connectingFds.erase c.fd
      halted := some .doubleErase }

/-! ### Steps -/

inductive Op
  | write (fd : ℤ) (msg : Bytes) (access : Bool)
  | close (fd : ℤ)
  /-- The notification of a `Write` or `Close` is sent. -/
  | notify (n : Notify)
  | socket (fd : ℤ)
  | connectFailed (fd : ℤ)
  /-- The `CleanUpConnRemaining` of a failed `Connect`. -/
  | cleanUp (fd : ℤ)
  | addConnection (fd : ℤ) (ipPort : Bytes) (inProgress : Bool) (now : ℤ)
  /-- The event loop takes a notification from the pipe. -/
  | processNotify
  | connEvent (fd : ℤ) (mask : Mask) (outcome : Outcome) (connectError : Bool) (now : ℤ)
  | advance
  | cron (now : ℤ)
  deriving DecidableEq, Repr

/-- One step. A step that is not possible in a state does nothing: `socket` returns only
descriptors that are not open, and the event loop does one thing at a time. -/
def step (s : BackendThread) (op : Op) : BackendThread :=
  if s.halted ≠ none then s
  else
    match op with
    | .write fd msg access => (s.write fd msg access).1
    | .close fd => (s.close fd).1
    | .notify n =>
      if n ∈ s.notifies then { s with notifies := s.notifies.erase n, pipe := s.pipe ++ [n] } else s
    | .socket fd => if fd ∈ s.openFds then s else s.socket fd
    | .connectFailed fd => if fd ∈ s.opening then s.connectFailed fd else s
    | .cleanUp fd =>
      if fd ∈ s.failing then
        { s.cleanUpConnRemaining fd with failing := s.failing.erase fd }
      else s
    | .addConnection fd ipPort inProgress now =>
      if fd ∈ s.opening then s.addConnection fd ipPort inProgress now else s
    | .processNotify =>
      match s.pc, s.pipe with
      | .idle, n :: ns => { s with pipe := ns }.processNotify n
      | _, _ => s
    | .connEvent fd mask o connectError now =>
      if s.pc = .idle then s.connEvent fd mask o connectError now else s
    | .advance => s.advance
    | .cron now => if s.pc = .idle then s.doCronTask now else s

end BackendThread

end Pink.Backend.Thread
