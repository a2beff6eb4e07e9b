import Pink.Backend.Thread

/-! # The client thread

`ClientThread` keeps its connections in two maps, `fd_conns_` by descriptor and `ipport_conns_` by
address, and the messages still to be sent by address. All three are changed by the event loop: by
the notifications it reads from the pipe, by readiness events and by the cron task, each of which is
one step here. `Write` and `Close` may be called by any thread, and a notification to close comes
from a connection, with the descriptor and the address it has.

`slash::ParseIpPortString` is not part of this repository; it is only known that the parts it takes
an address apart into make up the address (`ParseSpec`). -/

namespace Pink.Client.Thread

open Pink.Redis.Wire Pink.Server.Conns Pink.Server.Threads
open Pink.Backend.Thread (kConnWriteBuf)
open Pink.Backend.Thread.BackendThread (closes touches)

/-- `ip + ":" + std::to_string(port)`. -/
def join (ip : Bytes) (port : Int32) : Bytes := ip ++ bytes ":" ++ decimal port.toInt

/-- What is relied on of `slash::ParseIpPortString`. -/
structure ParseSpec (parse : Bytes → Option (Bytes × Int32)) : Prop where
  joins : ∀ ip port ip' port', parse (join ip port) = some (ip', port') →
    join ip' port' = join ip port

inductive Status
  | ok
  | corruption (msg : Bytes)
  | ioError (msg msg2 : Bytes)
  deriving DecidableEq, Repr

/-- What is sent through the pipe. -/
inductive Item
  | write (ipPort : Bytes)
  | close (fd : ℤ) (ipPort : Bytes)
  deriving DecidableEq, Repr

/-- What happens to one of the resolved addresses: there is no socket, or there is one and `connect`
has this outcome. -/
inductive Attempt
  | noSocket
  | unreachable (fd : ℤ)
  | inProgress (fd : ℤ)
  | failed (fd : ℤ)
  /-- Connected, and whether the local address is the remote one. -/
  | connected (fd : ℤ) (same : Bool)
  deriving DecidableEq, Repr

/-- The outcome of `getaddrinfo`, and of what follows; `error` is the text of the last `errno`. -/
structure Resolved where
  attempts : Option (List Attempt) := none
  error : Bytes := []
  deriving DecidableEq, Repr

structure ClientThread where
  fdConns : Std.ExtTreeMap ℤ Conn compare := ∅
  ipportConns : Std.ExtTreeMap Bytes Conn compare := ∅
  connectingFds : Finset ℤ := ∅
  toSend : Std.ExtTreeMap Bytes (List Bytes) compare := ∅
  toDel : List Bytes := []
  keepaliveTimeout : ℤ := 60
  lastInteraction : ℕ → ℤ := fun _ => 0
  openFds : Finset ℤ := ∅
  /-- The notifications of calls of `Write` that are still to be sent. -/
  notifies : List Item := []
  pipe : List Item := []
  /-- A vector was changed while it was gone through, or a null pointer was used. -/
  halted : Bool := false
  nextId : ℕ := 0
  /-- The calls of `WriteResp` that returned zero. -/
  delivered : List (Conn × Bytes) := []

namespace ClientThread

/-! ### The calls of other threads -/

/-- `Write` up to its notification; `access` is the answer of `AccessHandle`. -/
def write (s : ClientThread) (ip : Bytes) (port : Int32) (msg : Bytes) (access : Bool) :
    ClientThread × Status :=
  let ipPort := join ip port
  if ¬access then (s, .corruption (ipPort ++ bytes " is baned by user!"))
  else
    let msgs := s.toSend.getD ipPort []
    if (msgs.map List.length).sum > kConnWriteBuf then
      ({ s with toSend := s.toSend.insert ipPort msgs },
        .corruption (bytes "Connection buffer over maximum size"))
    else
      ({ s with
        toSend := s.toSend.insert ipPort (msgs ++ [msg])
        notifies := s.notifies ++ [.write ipPort] }, .ok)

def close (s : ClientThread) (ip : Bytes) (port : Int32) : ClientThread × Status :=
  ({ s with toDel := s.toDel ++ [join ip port] }, .ok)

/-! ### Connecting and closing -/

/-- `close` and `CleanUpConnRemaining`, in both forms of `CloseFd`. -/
def closeFd (s : ClientThread) (fd : ℤ) (ipPort : Bytes) : ClientThread :=
  { s with openFds := s.openFds.erase fd, toSend := s.toSend.erase ipPort }

/-- The erases that follow. -/
def forget (s : ClientThread) (fd : ℤ) (ipPort : Bytes) : ClientThread :=
  { s with
    fdConns := s.fdConns.erase fd
    ipportConns := s.ipportConns.erase ipPort
    connectingFds := s.connectingFds.erase fd }

/-- `NewConnection`; `insert` leaves an entry that is there as it is. -/
def newConnection (s : ClientThread) (ipPort : Bytes) (fd : ℤ) (now : ℤ) : ClientThread :=
  let tc : Conn := ⟨s.nextId, fd, ipPort⟩
  { s with
    openFds := insert fd s.openFds
    fdConns := s.fdConns.insertIfNew fd tc
    ipportConns := s.ipportConns.insertIfNew ipPort tc
    lastInteraction := Function.update s.lastInteraction s.nextId now
    nextId := s.nextId + 1 }

/-- The loop of `ScheduleConnect` over the resolved addresses. -/
def connectLoop (ipPort error : Bytes) (now : ℤ) :
    List Attempt → ClientThread → ClientThread × Status
  | [], s => (s, .ioError error (bytes "Can't create socket "))
  | .noSocket :: rest, s => connectLoop ipPort error now rest s
  | .unreachable fd :: rest, s =>
    if fd ∈ s.openFds then connectLoop ipPort error now rest s
    else connectLoop ipPort error now rest (s.closeFd fd ipPort)
  | .inProgress fd :: rest, s =>
    if fd ∈ s.openFds then connectLoop ipPort error now rest s
    else
      let s := s.newConnection ipPort fd now
      ({ s with connectingFds := insert fd s.connectingFds }, .ok)
  | .failed fd :: rest, s =>
    if fd ∈ s.openFds then connectLoop ipPort error now rest s
    else
      (s.closeFd fd ipPort,
        .ioError (bytes "EHOSTUNREACH") (bytes "The target host cannot be reached"))
  | .connected fd same :: rest, s =>
    if fd ∈ s.openFds then connectLoop ipPort error now rest s
    else
      (s.newConnection ipPort fd now,
        if same then .ioError (bytes "EHOSTUNREACH") (bytes "same ip port") else .ok)

/-- `socket` returns only descriptors that are not open: an attempt with another one is none. -/
def scheduleConnect (s : ClientThread) (ip : Bytes) (port : Int32) (res : Resolved) (now : ℤ) :
    ClientThread × Status :=
  match res.attempts with
  | none => (s, .ioError (bytes "connect getaddrinfo error for ") ip)
  | some attempts => connectLoop (join ip port) res.error now attempts s

/-! ### The event loop -/

/-- The messages for an address are handed over one after the other, `results` being what
`WriteResp` returns for each. For a message that is not taken the loop appends to the vector it goes
through. -/
def handOver (s : ClientThread) (ipPort : Bytes) (conn : Conn) :
    List Bytes → List Bool → ClientThread
  | [], _ => { s with toSend := s.toSend.erase ipPort }
  | msg :: msgs, results =>
    if results.headD false then { s with halted := true }
    else
      handOver { s with delivered := s.delivered ++ [(conn, msg)] } ipPort conn msgs results.tail

/-- The lines behind the connecting. If `ipport_conns_` has no entry, `operator[]` makes one with a
null pointer. -/
def sendPending (s : ClientThread) (ipPort : Bytes) (results : List Bool) : ClientThread :=
  match s.toSend[ipPort]?, s.ipportConns[ipPort]? with
  | none, _ => s
  | some [], _ => { s with toSend := s.toSend.erase ipPort }
  | some (_ :: _), none => { s with halted := true }
  | some msgs, some conn => s.handOver ipPort conn msgs results

/-- One item in `ProcessNotifyEvents`. -/
def processNotify (parse : Bytes → Option (Bytes × Int32)) (s : ClientThread) (res : Resolved)
    (results : List Bool) (now : ℤ) : Item → ClientThread
  | .write ipPort =>
    match s.ipportConns[ipPort]? with
    | some _ => s.sendPending ipPort results
    | none =>
      match parse ipPort with
      | none => s
      | some (ip, port) =>
        let (s, status) := s.scheduleConnect ip port res now
        if status = .ok then s.sendPending ipPort results else s
  | .close fd ipPort => (s.closeFd fd ipPort).forget fd ipPort

/-- A readiness event. -/
def connEvent (s : ClientThread) (fd : ℤ) (mask : Mask) (o : Outcome) (connectError : Bool)
    (now : ℤ) : ClientThread :=
  match s.fdConns[fd]? with
  | none => s
  | some conn =>
    let connecting := fd ∈ s.connectingFds
    let s := { s with
      connectingFds := s.connectingFds.erase fd
      lastInteraction := if touches connecting connectError mask o then
          Function.update s.lastInteraction conn.id now
        else s.lastInteraction }
    if closes connecting connectError mask o then
      (s.closeFd conn.fd conn.ipPort).forget fd conn.ipPort
    else s

/-- The first loop of `DoCronTask`; what is left in `to_send_` is kept. -/
def timeoutLoop (now : ℤ) : List (ℤ × Conn) → ClientThread → ClientThread
  | [], s => s
  | (fd, conn) :: rest, s =>
    if s.keepaliveTimeout > 0 ∧ now - s.lastInteraction conn.id > s.keepaliveTimeout then
      timeoutLoop now rest
        ({ s with openFds := s.openFds.erase conn.fd }.forget fd conn.ipPort)
    else timeoutLoop now rest s

/-- The second loop of `DoCronTask`. -/
def deleteLoop : List Bytes → ClientThread → ClientThread
  | [], s => s
  | name :: rest, s =>
    match s.ipportConns[name]? with
    | none => deleteLoop rest s
    | some conn => deleteLoop rest ((s.closeFd conn.fd conn.ipPort).forget conn.fd name)

def doCronTask (s : ClientThread) (now : ℤ) : ClientThread :=
  let s := timeoutLoop now s.fdConns.toList s
  deleteLoop s.toDel { s with toDel := [] }

/-! ### Steps -/

inductive Op
  | write (ip : Bytes) (port : Int32) (msg : Bytes) (access : Bool)
  | close (ip : Bytes) (port : Int32)
  /-- The notification of a `Write` is sent. -/
  | notifyWrite (item : Item)
  /-- A connection, possibly one that is closed by now, asks to be closed. -/
  | notifyClose (fd : ℤ) (ipPort : Bytes)
  /-- The event loop takes an item from the pipe. -/
  | processNotify (res : Resolved) (results : List Bool) (now : ℤ)
  | connEvent (fd : ℤ) (mask : Mask) (outcome : Outcome) (connectError : Bool) (now : ℤ)
  | cron (now : ℤ)
  deriving DecidableEq, Repr

def step (parse : Bytes → Option (Bytes × Int32)) (s : ClientThread) (op : Op) : ClientThread :=
  if s.halted then s
  else
    match op with
    | .write ip port msg access => (s.write ip port msg access).1
    | .close ip port => (s.close ip port).1
    | .notifyWrite item =>
      if item ∈ s.notifies then
        { s with notifies := s.notifies.erase item, pipe := s.pipe ++ [item] }
      else s
    | .notifyClose fd ipPort => { s with pipe := s.pipe ++ [.close fd ipPort] }
    | .processNotify res results now =>
      match s.pipe with
      | [] => s
      | item :: items => { s with pipe := items }.processNotify parse res results now item
    | .connEvent fd mask o connectError now => s.connEvent fd mask o connectError now
    | .cron now => s.doCronTask now

end ClientThread

end Pink.Client.Thread
