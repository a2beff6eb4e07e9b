import Pink.Lib.Runs
import Pink.Redis.Conn
import Pink.Server.Conns

/-! # Worker and holy threads

The steps of a `WorkerThread` and of a `HolyThread` that concern its connections: notifications,
readiness events, cron ticks, kills, `MoveConnOut` and the final `Cleanup`. What a connection
answers to `SendReply`, `GetRequest`, `is_reply` and `is_quit`, and the clock, are part of a step.

A connection that leaves `conns_` is closed, except in two places: a cron tick after `KillAllConns`
returns before it closes what it has collected, and an event of a `WorkerThread` for a connection
that waits for its deletion erases it and does not close it. In a run without these every connection
is closed exactly once (`run_closedOnce`). -/

namespace Pink.Server.Threads

open Pink.Redis.Wire Pink.Lib.Runs Pink.Server.Conns
open Pink.Redis.Conn (WriteStatus)

inductive ReadStatus
  | readHalf | readAll | readError | readClose | fullError | parseError | dealError | ok
  deriving DecidableEq, Repr

structure Mask where
  epollin : Bool := false
  epollout : Bool := false
  epollerr : Bool := false
  epollhup : Bool := false
  deriving DecidableEq, Repr

/-- What a connection answers during an event. -/
structure Outcome where
  isReply : Bool := false
  write : WriteStatus := .writeAll
  isQuit : Bool := false
  read : ReadStatus := .readAll
  deriving DecidableEq, Repr

/-- How the set-up of a connection goes: there is no object, it cannot be made non-blocking, or it
has no SSL. -/
inductive Setup
  | null | blocking | noSSL | ok
  deriving DecidableEq, Repr

/-- `set_last_interaction`. -/
def touch (s : ServerState) (c : Conn) (now : ℤ) : ServerState :=
  { s with lastInteraction := Function.update s.lastInteraction c.id now }

/-- `CloseFd` and `conns_.erase`. -/
def closeAndErase (s : ServerState) (c : Conn) : ServerState := (s.closeFd c).erase c.fd

/-! ### `WorkerThread` -/

namespace WorkerThread

/-- An item with `kNotiConnect`. -/
def handleConnect (s : ServerState) (fd : ℤ) (ipPort : Bytes) (setup : Setup) (now : ℤ) :
    ServerState :=
  let (tc, s') := s.newPinkConn fd ipPort now
  match setup with
  | .null => s
  | .blocking => s'
  | .noSSL => s'.closeFd tc
  | .ok => s'.enter tc

/-- The reply part of an event: `should_close` behind it, or `none` if the event is over. -/
def reply (mask : Mask) (o : Outcome) : Option Bool :=
  if mask.epollout && o.isReply then
    match o.write with
    | .writeAll => some o.isQuit
    | .writeHalf => none
    | .writeError => some true
  else some false

/-- The request part of an event. -/
def request (mask : Mask) (o : Outcome) (shouldClose : Bool) : Option Bool :=
  if !shouldClose && mask.epollin then
    match o.read with
    | .readAll => some false
    | .readHalf => none
    | _ => some true
  else some shouldClose

def closes (mask : Mask) (o : Outcome) : Bool :=
  match (reply mask o).bind (request mask o) with
  | none => false
  | some shouldClose => mask.epollerr || mask.epollhup || shouldClose

/-- `SendReply` or `GetRequest` is called. -/
def touches (mask : Mask) (o : Outcome) : Bool :=
  (mask.epollout && o.isReply) || (mask.epollin && reply mask o = some false)

/-- A readiness event; epoll holds a plain pointer to the connection. -/
def handleEvent (s : ServerState) (c : Conn) (mask : Mask) (o : Outcome) (now : ℤ) : ServerState :=
  if c ∉ s.registered then s
  else if ¬s.Has c then { s with crashed := true }
  else if c ∈ s.waitingDel then { s.erase c.fd with registered := s.registered.erase c }
  else
    let s := if touches mask o then touch s c now else s
    if closes mask o then closeAndErase s c else s

end WorkerThread

/-! ### `HolyThread` -/

namespace HolyThread

/-- The result of `SetNonblock` is ignored. -/
def handleNewConn (s : ServerState) (fd : ℤ) (ipPort : Bytes) (setup : Setup) (now : ℤ) :
    ServerState :=
  let (tc, s') := s.newPinkConn fd ipPort now
  if setup = .null then { s with crashed := true } else s'.enter tc

/-- The request and the reply part with `async_`. -/
def asyncRequest (mask : Mask) (o : Outcome) : Option Bool :=
  if mask.epollin then
    match o.read with
    | .readAll => some false
    | .readHalf => none
    | _ => some true
  else some false

def asyncReply (mask : Mask) (o : Outcome) (shouldClose : Bool) : Option Bool :=
  if mask.epollout && o.isReply then
    match o.write with
    | .writeAll => some shouldClose
    | .writeHalf => none
    | .writeError => some true
  else some shouldClose

/-- The request and the reply part without `async_`. -/
def request (mask : Mask) (o : Outcome) : Option Bool :=
  if mask.epollin then
    if o.read ≠ .readAll ∧ o.read ≠ .readHalf then some true
    else if o.isReply then some false
    else none
  else some false

def reply (mask : Mask) (o : Outcome) (shouldClose : Bool) : Option Bool :=
  if mask.epollout then
    match o.write with
    | .writeAll => some shouldClose
    | .writeHalf => none
    | .writeError => some true
  else some shouldClose

def closes (async : Bool) (mask : Mask) (o : Outcome) : Bool :=
  let res := if async then (asyncRequest mask o).bind (asyncReply mask o)
    else (request mask o).bind (reply mask o)
  match res with
  | none => false
  | some shouldClose => mask.epollerr || mask.epollhup || shouldClose

def handleConnEvent (async : Bool) (s : ServerState) (fd : ℤ) (mask : Mask) (o : Outcome)
    (now : ℤ) : ServerState :=
  match s.conns[fd]? with
  | none => { s with registered := s.registered.filter fun c => c.fd ≠ fd }
  | some c =>
    let s := if mask.epollin then touch s c now else s
    if closes async mask o then closeAndErase s c else s

/-- An item with `kNotiClose`. -/
def handleNotiClose (s : ServerState) (fd : ℤ) : ServerState :=
  match s.conns[fd]? with
  | none => s
  | some c => closeAndErase s c

end HolyThread

/-! ### Runs -/

inductive ThreadKind
  | worker | holy (async : Bool)
  deriving DecidableEq, Repr

def ThreadKind.isWorker : ThreadKind → Bool
  | .worker => true
  | .holy _ => false

inductive Op
  /-- A connection was accepted; it is handled at second `now`. -/
  | newConn (fd : ℤ) (ipPort : Bytes) (setup : Setup) (now : ℤ)
  /-- epoll reports a connection, by its pointer or by its descriptor. -/
  | event (conn : Conn) (mask : Mask) (outcome : Outcome) (now : ℤ)
  | notiClose (fd : ℤ)
  | cron (now : ℤ)
  | killConn (ipPort : Bytes)
  | killAllConns
  | moveConnOut (fd : ℤ)
  | cleanup
  deriving DecidableEq, Repr

/-- One step. `accept` returns only descriptors that are not open. -/
def step (t : ThreadKind) (s : ServerState) (op : Op) : ServerState :=
  if s.crashed then s
  else
    match op with
    | .newConn fd ipPort setup now =>
      if s.Free fd then
        match t with
        | .worker => WorkerThread.handleConnect s fd ipPort setup now
        | .holy _ => HolyThread.handleNewConn s fd ipPort setup now
      else s
    | .event c mask o now =>
      match t with
      | .worker => WorkerThread.handleEvent s c mask o now
      | .holy async => HolyThread.handleConnEvent async s c.fd mask o now
    | .notiClose fd =>
      match t with
      | .worker => s
      | .holy _ => HolyThread.handleNotiClose s fd
    | .cron now => s.doCronTask t.isWorker now
    | .killConn ipPort => (s.tryKillConn t.isWorker ipPort).1
    | .killAllConns => (s.tryKillConn t.isWorker kKillAllConnsTask).1
    | .moveConnOut fd => s.moveConnOut fd
    | .cleanup => s.cleanup

/-- Every connection is closed exactly once: not at all as long as it is in `conns`, and once when
it has left it other than through `MoveConnOut`. -/
structure ClosedOnce (s : ServerState) : Prop where
  live : ∀ c, s.Has c → s.closed.count c = 0 ∧ s.handled.count c = 0
  left : ∀ c ∈ s.entered, ¬s.Has c → c ∉ s.moved →
    s.closed.count c = 1 ∧ s.handled.count c = 1

/-- The step does not drop connections: it is not a cron tick with `KillAllConns` pending and
connections in the map, and not an event of a `WorkerThread` for a connection that waits for its
deletion. -/
def Closing (t : ThreadKind) (s : ServerState) : Op → Prop
  | .cron _ => kKillAllConnsTask ∈ s.deletingConnIpport → s.conns.isEmpty
  | .event c _ _ _ => t.isWorker → c ∉ s.waitingDel
  | _ => True

instance (t : ThreadKind) (s : ServerState) (op : Op) : Decidable (Closing t s op) := by
  cases op <;> unfold Closing <;> infer_instance

/-! ### The account is kept -/

section Steps
variable {s : ServerState} {c : Conn}

theorem inv_touch (h : s.Inv []) (c : Conn) (now : ℤ) : (touch s c now).Inv [] :=
  h.congr rfl rfl rfl rfl rfl rfl rfl

theorem inv_crashed (h : s.Inv []) : ({ s with crashed := true } : ServerState).Inv [] :=
  h.congr rfl rfl rfl rfl rfl rfl rfl

theorem inv_closeAndErase (h : s.Inv []) (hc : s.Has c) : (closeAndErase s c).Inv [] :=
  (h.drop hc).close

theorem not_mem_of_fresh (h : s.Inv []) (hid : s.nextId ≤ c.id) :
    c ∉ s.entered ∧ c ∉ s.closed ∧ c ∉ s.handled :=
  ⟨fun hc => absurd (h.fresh c (Or.inl hc)) (by omega),
    fun hc => absurd (h.fresh c (Or.inr (Or.inl hc))) (by omega),
    fun hc => absurd (h.fresh c (Or.inr (Or.inr hc))) (by omega)⟩

/-- A new connection enters the map. -/
theorem inv_enter (h : s.Inv []) {fd : ℤ} (hf : s.Free fd) (ipPort : Bytes) (now : ℤ) :
    ((s.newPinkConn fd ipPort now).2.enter (s.newPinkConn fd ipPort now).1).Inv [] := by
  have hnew := not_mem_of_fresh h (c := (s.newPinkConn fd ipPort now).1) le_rfl
  exact (h.newPinkConn fd ipPort now).enter hf (Nat.lt_succ_self _) hnew

/-- A connection that was never in the map is closed. -/
theorem inv_closeFd_new (h : s.Inv []) (hid : c.id < s.nextId) (hc : c ∉ s.entered) :
    (s.closeFd c).Inv [] := by
  have hne : ∀ c' ∈ s.entered, c' ≠ c := by rintro c' hc' rfl; exact hc hc'
  refine ⟨h.key, fun c' hc' => ?_, fun c' hc' => ?_, fun c' hc' hn => ?_, h.moved, by simp,
    h.nodup, fun c' hc' => h.registered c' (Finset.mem_of_mem_erase hc')⟩
  · simp only [ServerState.closeFd, List.mem_append, List.mem_singleton] at hc'
    rcases hc' with hc' | (hc' | rfl) | (hc' | rfl)
    · exact h.fresh c' (Or.inl hc')
    · exact h.fresh c' (Or.inr (Or.inl hc'))
    · exact hid
    · exact h.fresh c' (Or.inr (Or.inr hc'))
    · exact hid
  · obtain ⟨h1, h2, h3, h4⟩ := h.live c' hc'
    have := hne c' h1
    exact ⟨h1, h2, by simp [ServerState.closeFd, h3, this],
      by simp [ServerState.closeFd, h4, this]⟩
  · have := hne c' hc'
    simpa [ServerState.closeFd, List.count_append, List.count_singleton, Ne.symm this] using
      h.left c' hc' hn

theorem inv_handleConnect (h : s.Inv []) {fd : ℤ} (hf : s.Free fd) (ipPort : Bytes)
    (setup : Setup) (now : ℤ) :
    (WorkerThread.handleConnect s fd ipPort setup now).Inv [] := by
  have hnew := h.newPinkConn fd ipPort now
  cases setup with
  | null => exact h
  | blocking => exact hnew
  | noSSL =>
    exact inv_closeFd_new hnew (Nat.lt_succ_self _)
      (not_mem_of_fresh h (c := (s.newPinkConn fd ipPort now).1) le_rfl).1
  | ok => exact inv_enter h hf ipPort now

theorem inv_handleEvent (h : s.Inv []) (c : Conn) (hc : c ∉ s.waitingDel) (mask : Mask)
    (o : Outcome) (now : ℤ) : (WorkerThread.handleEvent s c mask o now).Inv [] := by
  unfold WorkerThread.handleEvent
  by_cases hreg : c ∈ s.registered
  · have hhas : s.Has c := (h.registered c hreg).resolve_right List.not_mem_nil
    rw [if_neg (not_not.mpr hreg), if_neg (not_not.mpr hhas), if_neg hc]
    dsimp only
    split_ifs
    · exact inv_closeAndErase (inv_touch h c now) hhas
    · exact inv_closeAndErase h hhas
    · exact inv_touch h c now
    · exact h
  · rw [if_pos hreg]; exact h

theorem inv_handleNewConn (h : s.Inv []) {fd : ℤ} (hf : s.Free fd) (ipPort : Bytes)
    (setup : Setup) (now : ℤ) : (HolyThread.handleNewConn s fd ipPort setup now).Inv [] := by
  unfold HolyThread.handleNewConn
  dsimp only
  split_ifs
  · exact inv_crashed h
  · exact inv_enter h hf ipPort now

theorem inv_handleConnEvent (h : s.Inv []) (async : Bool) (fd : ℤ) (mask : Mask) (o : Outcome)
    (now : ℤ) : (HolyThread.handleConnEvent async s fd mask o now).Inv [] := by
  unfold HolyThread.handleConnEvent
  split
  · exact ⟨h.key, h.fresh, h.live, h.left, h.moved, h.waiting, h.nodup,
      fun c hc => h.registered c (Finset.mem_of_mem_filter c hc)⟩
  case _ c hc =>
    have hhas := h.has hc
    dsimp only
    split_ifs
    · exact inv_closeAndErase (inv_touch h c now) hhas
    · exact inv_closeAndErase h hhas
    · exact inv_touch h c now
    · exact h

theorem inv_handleNotiClose (h : s.Inv []) (fd : ℤ) :
    (HolyThread.handleNotiClose s fd).Inv [] := by
  unfold HolyThread.handleNotiClose
  split
  · exact h
  case _ c hc => exact inv_closeAndErase h (h.has hc)

/-- **Every step that does not drop connections keeps the account.** -/
theorem inv_step (t : ThreadKind) (h : s.Inv []) (op : Op) (hop : Closing t s op) :
    (step t s op).Inv [] := by
  unfold step
  split_ifs with hcr
  · exact h
  cases op with
  | newConn fd ipPort setup now =>
    dsimp only
    split_ifs with hf
    · cases t with
      | worker => exact inv_handleConnect h hf ipPort setup now
      | holy async => exact inv_handleNewConn h hf ipPort setup now
    · exact h
  | event c mask o now =>
    cases t with
    | worker => exact inv_handleEvent h c (hop rfl) mask o now
    | holy async => exact inv_handleConnEvent h async c.fd mask o now
  | notiClose fd =>
    cases t with
    | worker => exact h
    | holy async => exact inv_handleNotiClose h fd
  | cron now =>
    exact h.doCronTask t.isWorker now fun hk => Std.ExtTreeMap.isEmpty_iff.mp (hop hk)
  | killConn ipPort => exact h.tryKillConn t.isWorker ipPort
  | killAllConns => exact h.tryKillConn t.isWorker kKillAllConnsTask
  | moveConnOut fd => exact h.moveConnOut fd
  | cleanup => exact h.cleanup

theorem inv_start (timeout : ℤ) : ({ keepaliveTimeout := timeout } : ServerState).Inv [] :=
  ⟨by simp, by simp, by simp [ServerState.Has], by simp, by simp, by simp, List.nodup_nil, by simp⟩

theorem closedOnce_of_inv (h : s.Inv []) : ClosedOnce s where
  live c hc := by
    obtain ⟨-, -, h1, h2⟩ := h.live c hc
    exact ⟨List.count_eq_zero.mpr h1, List.count_eq_zero.mpr h2⟩
  left c hc hn hm :=
    ((h.left c hc hn).resolve_left hm).resolve_left List.not_mem_nil

end Steps

/-- **In every run that does not drop connections every connection is closed exactly once.** -/
theorem run_closedOnce (t : ThreadKind) (timeout : ℤ) {ops : List Op}
    (h : Guarded (step t) (Closing t) { keepaliveTimeout := timeout } ops) :
    ClosedOnce (run (step t) { keepaliveTimeout := timeout } ops) :=
  closedOnce_of_inv (run_inv (ServerState.Inv []) (fun _ op hs hop => inv_step t hs op hop)
    (inv_start timeout) h)

/-- A kill, a time-out, a failed read, a descriptor used again, and the end of the thread. -/
theorem run_closedOnce_mixed : ClosedOnce (run (step .worker) { keepaliveTimeout := 60 }
    [.newConn 7 (bytes "a:1") .ok 0, .newConn 8 (bytes "b:1") .ok 0,
      .newConn 9 (bytes "c:1") .ok 50, .killConn (bytes "a:1"), .cron 70,
      .newConn 7 (bytes "d:1") .ok 71,
      .event ⟨2, 9, bytes "c:1"⟩ { epollin := true } { read := .readClose } 72, .cleanup]) :=
  run_closedOnce .worker 60 (by decide +kernel)

/-- `KillAllConns` and a cron tick, for a worker and for a holy thread, and a request of a
connection of a worker that is to be killed. -/
theorem not_closedOnce_dropped :
    ¬ClosedOnce (run (step .worker) { keepaliveTimeout := 60 }
      [.newConn 7 (bytes "a:1") .ok 0, .killAllConns, .cron 1]) ∧
    ¬ClosedOnce (run (step (.holy false)) { keepaliveTimeout := 60 }
      [.newConn 7 (bytes "a:1") .ok 0, .killAllConns, .cron 1]) ∧
    ¬ClosedOnce (run (step .worker) { keepaliveTimeout := 60 }
      [.newConn 7 (bytes "a:1") .ok 0, .killConn (bytes "a:1"),
        .event ⟨0, 7, bytes "a:1"⟩ { epollin := true } {} 1]) := by
  refine ⟨fun h => ?_, fun h => ?_, fun h => ?_⟩ <;>
    exact absurd (h.left ⟨0, 7, bytes "a:1"⟩ (by decide +kernel) (by decide +kernel)
      (by decide +kernel)).1 (by decide +kernel)

end Pink.Server.Threads
