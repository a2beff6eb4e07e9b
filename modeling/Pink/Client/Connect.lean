import Pink.Lib.Runs
import Pink.Client.Thread

/-! # Connecting

`BackendThread::Connect` as one call, and what it and `ClientThread::ScheduleConnect` leave behind.
Both go through the resolved addresses until one of them decides the call (`decisive`). The call is
all or nothing (`AllOrNothing`, `Unchanged`) but for two exits: a connection that is there at once is
registered without its descriptor being returned, and one that turns out to be with itself is
reported as an error with the connection registered and the socket open (`allOrNothing_iff`).

The steps of a call are those of the machine of `Backend.Thread`, without other threads in between
(`connect_run`). -/

namespace Pink.Client.Connect

open Pink.Redis.Wire Pink.Lib.Runs Pink.Server.Conns Pink.Client.Thread
open Pink.Backend.Thread (BackendThread)

/-! ### `BackendThread::Connect` -/

inductive Status
  | ok
  | invalidArgument (msg : Bytes)
  | ioError (msg msg2 : Bytes)
  deriving DecidableEq, Repr

/-- A call: the thread, `*fd` (`none` if `fd` is a null pointer), and what is returned. -/
structure Call where
  thread : BackendThread
  fd : Option ℤ
  status : Status

/-- `socket`, a `connect` that fails, and `CloseFd(sockfd)`. -/
def closeFd (s : BackendThread) (fd : ℤ) : BackendThread :=
  let s := (s.socket fd).connectFailed fd
  { s.cleanUpConnRemaining fd with failing := s.failing.erase fd }

/-- `socket`, `AddConnection`, and `SetWaitConnectOnEpoll` or `PinkAddEvent`. -/
def register (s : BackendThread) (fd : ℤ) (ipPort : Bytes) (inProgress : Bool) (now : ℤ) :
    BackendThread := (s.socket fd).addConnection fd ipPort inProgress now

/-- The loop of `Connect` over the resolved addresses. `socket` returns only descriptors that are not
open: an attempt with another one is none. -/
def connectLoop (ipPort error : Bytes) (now : ℤ) (fd : Option ℤ) :
    List Attempt → BackendThread → Call
  | [], s => ⟨s, fd, .ioError error (bytes "Can't create socket ")⟩
  | .noSocket :: rest, s => connectLoop ipPort error now fd rest s
  | .unreachable sockfd :: rest, s =>
    if sockfd ∈ s.openFds then connectLoop ipPort error now fd rest s
    else connectLoop ipPort error now fd rest (closeFd s sockfd)
  | .inProgress sockfd :: rest, s =>
    if sockfd ∈ s.openFds then connectLoop ipPort error now fd rest s
    else ⟨register s sockfd ipPort true now, some sockfd, .ok⟩
  | .failed sockfd :: rest, s =>
    if sockfd ∈ s.openFds then connectLoop ipPort error now fd rest s
    else ⟨closeFd s sockfd, fd,
      .ioError (bytes "EHOSTUNREACH") (bytes "The target host cannot be reached")⟩
  | .connected sockfd same :: rest, s =>
    if sockfd ∈ s.openFds then connectLoop ipPort error now fd rest s
    else
      -- `*fd` is not assigned
      ⟨register s sockfd ipPort false now, fd,
        if same then .ioError (bytes "EHOSTUNREACH") (bytes "same ip port") else .ok⟩

def connect (s : BackendThread) (ip : Bytes) (port : Int32) (fd : Option ℤ) (res : Resolved)
    (now : ℤ) : Call :=
  if fd = none then ⟨s, fd, .invalidArgument (bytes "fd argument is nullptr")⟩
  else
    match res.attempts with
    | none => ⟨s, fd, .ioError (bytes "connect getaddrinfo error for ") ip⟩
    | some attempts => connectLoop (join ip port) res.error now fd attempts s

/-! ### What should hold -/

/-- The call is successful exactly if it has added one connection and returned its descriptor;
otherwise it has changed nothing and left no socket open. -/
structure AllOrNothing (s : BackendThread) (x : Call) : Prop where
  ok : x.status = .ok ↔ ∃ fd c, x.fd = some fd ∧ c.fd = fd ∧ s.conns[fd]? = none ∧
    ∀ fd', x.thread.conns[fd']? = if fd' = fd then some c else s.conns[fd']?
  error : x.status ≠ .ok → x.thread.conns = s.conns ∧
    x.thread.connectingFds = s.connectingFds ∧ x.thread.openFds = s.openFds

/-- A call that fails has changed nothing and left no socket open. -/
def Unchanged (s : ClientThread) (x : ClientThread × Thread.Status) : Prop :=
  x.2 ≠ .ok → x.1.fdConns = s.fdConns ∧ x.1.ipportConns = s.ipportConns ∧
    x.1.connectingFds = s.connectingFds ∧ x.1.openFds = s.openFds

/-- The loop goes on behind this attempt. -/
def goesOn (openFds : Finset ℤ) : Attempt → Bool
  | .noSocket | .unreachable _ => true
  | .inProgress fd | .failed fd | .connected fd _ => fd ∈ openFds

/-- The attempt that decides the call. -/
def decisive (openFds : Finset ℤ) (attempts : List Attempt) : Option Attempt :=
  attempts.find? fun a => !goesOn openFds a

/-- A connection is registered under a descriptor that has none, and its descriptor is returned. -/
def Returned (s : BackendThread) (fd : Option ℤ) : Option Attempt → Prop
  | some (.inProgress sockfd) => s.conns[sockfd]? = none
  | some (.connected sockfd same) => ¬same ∧ s.conns[sockfd]? = none ∧ fd = some sockfd
  | _ => True

/-- Nothing is decided by a connection that is there at once, unless it is not with itself and `*fd`
is already its descriptor. -/
def Awaited (s : BackendThread) (fd : Option ℤ) (res : Resolved) : Prop :=
  fd ≠ none → Returned s fd (decisive s.openFds (res.attempts.getD []))

/-- Nothing is decided by a connection with itself. -/
def NotItself (s : ClientThread) (res : Resolved) : Prop :=
  ∀ fd, decisive s.openFds (res.attempts.getD []) ≠ some (.connected fd true)

/-! ### The loop up to the decisive attempt -/

theorem decisive_cons (openFds : Finset ℤ) (a : Attempt) (rest : List Attempt) :
    decisive openFds (a :: rest) =
      if goesOn openFds a then decisive openFds rest else some a := by
  unfold decisive
  rw [List.find?_cons]
  cases goesOn openFds a <;> rfl

section Backend
variable {s s' : BackendThread} {ipPort error : Bytes} {now : ℤ} {fd : Option ℤ}

/-- What a failed attempt leaves alone. -/
structure Same (s s' : BackendThread) : Prop where
  conns : s'.conns = s.conns
  connecting : s'.connectingFds = s.connectingFds
  opened : s'.openFds = s.openFds

theorem Same.refl (s : BackendThread) : Same s s := ⟨rfl, rfl, rfl⟩

theorem Same.trans {s'' : BackendThread} (h : Same s s') (h' : Same s' s'') : Same s s'' :=
  ⟨h'.conns.trans h.conns, h'.connecting.trans h.connecting, h'.opened.trans h.opened⟩

theorem same_closeFd {sockfd : ℤ} (h : sockfd ∉ s.openFds) : Same s (closeFd s sockfd) :=
  ⟨rfl, rfl, Finset.erase_insert h⟩

/-- The exits of the loop. -/
def exit (ipPort error : Bytes) (now : ℤ) (fd : Option ℤ) (s : BackendThread) :
    Option Attempt → Call
  | some (.inProgress sockfd) => ⟨register s sockfd ipPort true now, some sockfd, .ok⟩
  | some (.failed sockfd) => ⟨closeFd s sockfd, fd,
      .ioError (bytes "EHOSTUNREACH") (bytes "The target host cannot be reached")⟩
  | some (.connected sockfd same) => ⟨register s sockfd ipPort false now, fd,
      if same then .ioError (bytes "EHOSTUNREACH") (bytes "same ip port") else .ok⟩
  | _ => ⟨s, fd, .ioError error (bytes "Can't create socket ")⟩

/-- **The loop**: the attempts in front of the decisive one leave nothing behind. -/
theorem connectLoop_exit (ipPort error : Bytes) (now : ℤ) (fd : Option ℤ) :
    ∀ (attempts : List Attempt) (s : BackendThread), ∃ s', Same s s' ∧
      connectLoop ipPort error now fd attempts s =
        exit ipPort error now fd s' (decisive s.openFds attempts)
  | [], s => ⟨s, Same.refl s, rfl⟩
  | a :: rest, s => by
    obtain ⟨s', hs, he⟩ := connectLoop_exit ipPort error now fd rest s
    rw [decisive_cons]
    cases a with
    | noSocket => exact ⟨s', hs, he⟩
    | unreachable sockfd =>
      rw [if_pos (show goesOn s.openFds (.unreachable sockfd) = true from rfl), connectLoop]
      by_cases hfd : sockfd ∈ s.openFds
      · rw [if_pos hfd]
        exact ⟨s', hs, he⟩
      · rw [if_neg hfd]
        have hc := same_closeFd hfd
        obtain ⟨s₂, hs₂, he₂⟩ := connectLoop_exit ipPort error now fd rest (closeFd s sockfd)
        rw [hc.opened] at he₂
        exact ⟨s₂, hc.trans hs₂, he₂⟩
    | inProgress sockfd | failed sockfd | connected sockfd same =>
      simp only [goesOn, decide_eq_true_eq, connectLoop]
      by_cases hfd : sockfd ∈ s.openFds
      · rw [if_pos hfd, if_pos hfd]
        exact ⟨s', hs, he⟩
      · rw [if_neg hfd, if_neg hfd]
        exact ⟨s, Same.refl s, rfl⟩

theorem decisive_not_mem {openFds : Finset ℤ} {attempts : List Attempt} {a : Attempt}
    (h : decisive openFds attempts = some a) : goesOn openFds a = false := by
  simpa using List.find?_some h

theorem conns_register (s : BackendThread) (sockfd : ℤ) (ipPort : Bytes) (inProgress : Bool)
    (now fd' : ℤ) : (register s sockfd ipPort inProgress now).conns[fd']? =
      if fd' = sockfd ∧ s.conns[sockfd]? = none then some ⟨s.nextId, sockfd, ipPort⟩
      else s.conns[fd']? := by
  show (s.conns.insertIfNew sockfd _)[fd']? = _
  rw [Std.ExtTreeMap.getElem?_insertIfNew]
  simp only [Std.compare_eq_iff_eq, @eq_comm _ sockfd fd', Std.ExtTreeMap.mem_iff_isSome_getElem?,
    Option.not_isSome_iff_eq_none]
  rfl

/-- A call that has registered a connection and says so. -/
theorem ok_register {sockfd : ℤ} (inProgress : Bool) (hs : Same s s') :
    AllOrNothing s ⟨register s' sockfd ipPort inProgress now, fd, .ok⟩ ↔
      s.conns[sockfd]? = none ∧ fd = some sockfd := by
  have hconns : ∀ fd', (register s' sockfd ipPort inProgress now).conns[fd']? =
      if fd' = sockfd ∧ s.conns[sockfd]? = none then some ⟨s'.nextId, sockfd, ipPort⟩
      else s.conns[fd']? := fun fd' => by rw [conns_register, hs.conns]
  constructor
  · intro h
    obtain ⟨n, c, hfd, -, hnone, hall⟩ := h.ok.mp rfl
    have hn := hall n
    rw [if_pos rfl, hconns] at hn
    split_ifs at hn with hif
    · obtain ⟨rfl, h0⟩ := hif
      exact ⟨h0, hfd⟩
    · rw [hnone] at hn
      cases hn
  · rintro ⟨hnone, hfd⟩
    refine ⟨iff_of_true rfl ⟨sockfd, ⟨s'.nextId, sockfd, ipPort⟩, hfd, rfl, hnone, fun fd' => ?_⟩,
      fun h => absurd rfl h⟩
    rw [hconns]
    simp only [hnone, and_true]

/-- A call that fails and has left nothing behind. -/
theorem allOrNothing_of_same {x : Call} (hs : Same s x.thread) (hne : x.status ≠ .ok) :
    AllOrNothing s x := by
  refine ⟨iff_of_false hne ?_, fun _ => ⟨hs.conns, hs.connecting, hs.opened⟩⟩
  rintro ⟨n, c, -, -, hnone, hall⟩
  have hn := hall n
  rw [if_pos rfl, hs.conns, hnone] at hn
  cases hn

/-- **`Connect` is all or nothing exactly if no connection that is there at once decides it.** -/
theorem connect_allOrNothing_iff (s : BackendThread) (ip : Bytes) (port : Int32) (fd : Option ℤ)
    (res : Resolved) (now : ℤ) :
    AllOrNothing s (connect s ip port fd res now) ↔ Awaited s fd res := by
  unfold connect Awaited
  by_cases hnull : fd = none
  · rw [if_pos hnull]
    exact iff_of_true (allOrNothing_of_same (Same.refl s) (by simp)) fun h => absurd hnull h
  rw [if_neg hnull]
  simp only [ne_eq, hnull, not_false_eq_true, true_imp_iff]
  rcases hres : res.attempts with _ | attempts
  · exact iff_of_true (allOrNothing_of_same (Same.refl s) (by simp)) trivial
  dsimp only [Option.getD_some]
  obtain ⟨s', hs, he⟩ := connectLoop_exit (join ip port) res.error now fd attempts s
  rw [he]
  rcases hd : decisive s.openFds attempts with _ | a
  · exact iff_of_true (allOrNothing_of_same hs (by simp [exit])) trivial
  have hfresh := decisive_not_mem hd
  cases a with
  | noSocket | unreachable sockfd => simp [goesOn] at hfresh
  | inProgress sockfd =>
    refine (ok_register true hs).trans ?_
    simp [Returned]
  | failed sockfd =>
    have hnot : sockfd ∉ s'.openFds := by rw [hs.opened]; simpa [goesOn] using hfresh
    exact iff_of_true (allOrNothing_of_same (hs.trans (same_closeFd hnot)) (by simp [exit])) trivial
  | connected sockfd same =>
    have hnot : sockfd ∉ s.openFds := by simpa [goesOn] using hfresh
    cases same with
    | false =>
      refine (ok_register false hs).trans ?_
      simp [Returned]
    | true =>
      refine iff_of_false (fun h => hnot ?_) (by simp [Returned])
      -- the socket is open, and the call has failed
      have hopen : insert sockfd s'.openFds = s.openFds := (h.error (by simp [exit])).2.2
      rw [← hopen]
      exact Finset.mem_insert_self sockfd s'.openFds

/-! ### The steps of a call -/

/-- The steps of the loop, as they interleave with those of other threads. -/
def steps (ipPort : Bytes) (now : ℤ) (openFds : Finset ℤ) : List Attempt → List BackendThread.Op
  | [] => []
  | .noSocket :: rest => steps ipPort now openFds rest
  | .unreachable fd :: rest =>
    if fd ∈ openFds then steps ipPort now openFds rest
    else .socket fd :: .connectFailed fd :: .cleanUp fd :: steps ipPort now openFds rest
  | .inProgress fd :: rest =>
    if fd ∈ openFds then steps ipPort now openFds rest
    else [.socket fd, .addConnection fd ipPort true now]
  | .failed fd :: rest =>
    if fd ∈ openFds then steps ipPort now openFds rest
    else [.socket fd, .connectFailed fd, .cleanUp fd]
  | .connected fd _ :: rest =>
    if fd ∈ openFds then steps ipPort now openFds rest
    else [.socket fd, .addConnection fd ipPort false now]

theorem run_closeFd (hh : s.halted = none) {sockfd : ℤ} (h : sockfd ∉ s.openFds)
    (ops : List BackendThread.Op) :
    run BackendThread.step s (.socket sockfd :: .connectFailed sockfd :: .cleanUp sockfd :: ops) =
      run BackendThread.step (closeFd s sockfd) ops := by
  have h1 : BackendThread.step s (.socket sockfd) = s.socket sockfd := by
    simp only [BackendThread.step, hh, ne_eq, not_true_eq_false, if_false, if_neg h]
  have h2 : BackendThread.step (s.socket sockfd) (.connectFailed sockfd) =
      (s.socket sockfd).connectFailed sockfd := by
    simp [BackendThread.step, BackendThread.socket, hh]
  have h3 : BackendThread.step ((s.socket sockfd).connectFailed sockfd) (.cleanUp sockfd) =
      closeFd s sockfd := by
    simp [BackendThread.step, BackendThread.socket, BackendThread.connectFailed, hh, closeFd]
  simp only [run, List.foldl_cons, h1, h2, h3]

theorem run_register (hh : s.halted = none) {sockfd : ℤ} (h : sockfd ∉ s.openFds)
    (ipPort : Bytes) (inProgress : Bool) (now : ℤ) :
    run BackendThread.step s [.socket sockfd, .addConnection sockfd ipPort inProgress now] =
      register s sockfd ipPort inProgress now := by
  have h1 : BackendThread.step s (.socket sockfd) = s.socket sockfd := by
    simp only [BackendThread.step, hh, ne_eq, not_true_eq_false, if_false, if_neg h]
  have h2 : BackendThread.step (s.socket sockfd) (.addConnection sockfd ipPort inProgress now) =
      register s sockfd ipPort inProgress now := by
    simp [BackendThread.step, BackendThread.socket, hh, register]
  simp only [run, List.foldl_cons, h1, h2, List.foldl_nil]

/-- **The call is a run of the machine** of `Backend.Thread` in which no other thread gets in. -/
theorem connect_run (error : Bytes) (now : ℤ) (fd : Option ℤ) :
    ∀ (attempts : List Attempt) {s : BackendThread}, s.halted = none →
      (connectLoop ipPort error now fd attempts s).thread =
        run BackendThread.step s (steps ipPort now s.openFds attempts)
  | [], _, _ => rfl
  | a :: rest, s, hh => by
    have ih := connect_run error now fd rest hh
    cases a with
    | noSocket => exact ih
    | unreachable sockfd =>
      rw [connectLoop, steps]
      split_ifs with hfd
      · exact ih
      · rw [run_closeFd hh hfd, connect_run error now fd rest (s := closeFd s sockfd) hh,
          (same_closeFd hfd).opened]
    | inProgress sockfd =>
      rw [connectLoop, steps]
      split_ifs with hfd
      · exact ih
      · exact (run_register hh hfd ipPort true now).symm
    | failed sockfd =>
      rw [connectLoop, steps]
      split_ifs with hfd
      · exact ih
      · exact (run_closeFd hh hfd []).symm
    | connected sockfd same =>
      rw [connectLoop, steps]
      by_cases hfd : sockfd ∈ s.openFds
      · rw [if_pos hfd, if_pos hfd]
        exact ih
      · rw [if_neg hfd, if_neg hfd]
        exact (run_register hh hfd ipPort false now).symm

end Backend

/-! ### `ClientThread::ScheduleConnect` -/

section Client
open ClientThread (scheduleConnect)
variable {s : ClientThread}

/-- **The loop of `ScheduleConnect`** leaves the maps and the sockets alone when it fails, unless the
decisive attempt is a connection with itself. -/
theorem connectLoop_unchanged (ipPort error : Bytes) (now : ℤ) :
    ∀ (attempts : List Attempt) (s : ClientThread),
      Unchanged s (ClientThread.connectLoop ipPort error now attempts s) ↔
        ∀ fd, decisive s.openFds attempts ≠ some (.connected fd true)
  | [], s => iff_of_true (fun _ => ⟨rfl, rfl, rfl, rfl⟩) (by simp [decisive])
  | a :: rest, s => by
    have ih := connectLoop_unchanged ipPort error now rest s
    have hgo : ∀ {fd : ℤ} {a : Attempt}, fd ∉ s.openFds → goesOn s.openFds a = decide (fd ∈ s.openFds) →
        decisive s.openFds (a :: rest) = some a := by
      intro fd a hfd hg
      rw [decisive_cons, hg, decide_eq_false hfd]
      rfl
    cases a with
    | noSocket => exact ih
    | unreachable sockfd =>
      rw [ClientThread.connectLoop, decisive_cons,
        if_pos (show goesOn s.openFds (.unreachable sockfd) = true from rfl)]
      split_ifs with hfd
      · exact ih
      · have hopen : (s.closeFd sockfd ipPort).openFds = s.openFds :=
          Finset.erase_eq_of_notMem hfd
        have ih' := connectLoop_unchanged ipPort error now rest (s.closeFd sockfd ipPort)
        unfold Unchanged at ih' ⊢
        rwa [hopen] at ih'
    | inProgress sockfd =>
      rw [ClientThread.connectLoop]
      split_ifs with hfd
      · rw [decisive_cons, if_pos (by simpa [goesOn] using hfd)]
        exact ih
      · rw [hgo hfd rfl]
        exact iff_of_true (fun h => absurd rfl h) (by simp)
    | failed sockfd =>
      rw [ClientThread.connectLoop]
      split_ifs with hfd
      · rw [decisive_cons, if_pos (by simpa [goesOn] using hfd)]
        exact ih
      · rw [hgo hfd rfl]
        exact iff_of_true (fun _ => ⟨rfl, rfl, rfl, Finset.erase_eq_of_notMem hfd⟩) (by simp)
    | connected sockfd same =>
      rw [ClientThread.connectLoop]
      split_ifs with hfd hsame
      · rw [decisive_cons, if_pos (by simpa [goesOn] using hfd)]
        exact ih
      · rw [hgo hfd rfl]
        refine iff_of_false (fun h => hfd ?_) (by simp [hsame])
        have hopen : insert sockfd s.openFds = s.openFds := (h (by simp)).2.2.2
        rw [← hopen]
        exact Finset.mem_insert_self sockfd s.openFds
      · rw [hgo hfd rfl]
        exact iff_of_true (fun h => absurd rfl h) (by simp [hsame])

theorem scheduleConnect_unchanged_iff (s : ClientThread) (ip : Bytes) (port : Int32) (res : Resolved)
    (now : ℤ) : Unchanged s (s.scheduleConnect ip port res now) ↔ NotItself s res := by
  unfold scheduleConnect NotItself
  rcases res.attempts with _ | attempts
  · exact iff_of_true (fun _ => ⟨rfl, rfl, rfl, rfl⟩) (by simp [decisive])
  · exact connectLoop_unchanged (join ip port) res.error now attempts s

end Client

/-- **Connecting is all or nothing** exactly if no connection that is there at once decides
`Connect`, and no connection with itself decides `ScheduleConnect`. -/
theorem allOrNothing_iff (ip : Bytes) (port : Int32) (res : Resolved) (now : ℤ) :
    (∀ (s : BackendThread) (fd : Option ℤ),
      AllOrNothing s (connect s ip port fd res now) ↔ Awaited s fd res) ∧
    ∀ s : ClientThread, Unchanged s (s.scheduleConnect ip port res now) ↔ NotItself s res :=
  ⟨fun s fd => connect_allOrNothing_iff s ip port fd res now,
    fun s => scheduleConnect_unchanged_iff s ip port res now⟩

/-- The second address is connected at once: the call is successful, but `*fd` is still `-1`. With
itself at the other end, the client thread reports an error and keeps the connection. -/
theorem not_allOrNothing_at_once :
    ¬AllOrNothing {} (connect {} (bytes "10.0.0.1") 6379 (some (-1))
        ⟨some [.unreachable 5, .connected 5 false], []⟩ 0) ∧
      ¬Unchanged {} (ClientThread.scheduleConnect {} (bytes "127.0.0.1") 40000
        ⟨some [.connected 5 true], []⟩ 0) := by
  constructor
  · intro h
    obtain ⟨fd, c, hfd, -, -, hall⟩ := h.ok.mp rfl
    obtain rfl : -1 = fd := Option.some.inj hfd
    have hnone := hall (-1)
    rw [if_pos rfl] at hnone
    have hconns : (connect {} (bytes "10.0.0.1") 6379 (some (-1))
        ⟨some [.unreachable 5, .connected 5 false], []⟩ 0).thread.conns[(-1 : ℤ)]? = none := by
      decide +kernel
    rw [hconns] at hnone
    cases hnone
  · intro h
    obtain ⟨-, -, -, hopen⟩ := h (by decide)
    have hopen : insert (5 : ℤ) ∅ = (∅ : Finset ℤ) := hopen
    exact absurd hopen (by decide)

end Pink.Client.Connect
