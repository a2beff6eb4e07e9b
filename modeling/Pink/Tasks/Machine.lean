import Pink.Lib.Runs

/-! # The task queues

`BGThread` and the `TaskQueue` of a `ThreadPool` have the same two queues, one of tasks and one of
tasks with a time, and the same lock and condition variables around them. Here they are one machine:
the calls of `Schedule`, `DelaySchedule` and `QueueClear`, the workers, and the thread that stops
them. A step takes or gives back the lock, reads `should_stop()`, enters a wait, signals, or does
what a thread does with the queues while it holds the lock; a thread is where it has got to.

What the environment decides is in the label: the clock, which of the items with the smallest time
is on top of the priority queue, and which of the waiting threads a signal wakes. A condition
variable may also wake a thread without a signal.

The queues record what was accepted, and what became of it. -/

namespace Pink.Tasks.Machine

/-! ### The queues -/

/-- A function pointer and its argument. -/
structure Task where
  function : ℕ
  arg : ℕ
  deriving DecidableEq, Repr

/-- `exec_time` is a `uint64_t`; `due` is the time without wrap-around. -/
structure TimerItem where
  execTime : UInt64
  task : Task
  due : ℕ
  execTime_eq : execTime.toNat = due % 2 ^ 64
  deriving DecidableEq, Repr

/-- The item of a `DelaySchedule` at `now`, in microseconds, with a time-out in milliseconds. -/
def TimerItem.ofDelay (now timeout : UInt64) (task : Task) : TimerItem where
  execTime := now + timeout * 1000
  task := task
  due := now.toNat + timeout.toNat * 1000
  execTime_eq := by simp [UInt64.toNat_add, UInt64.toNat_mul]

inductive Fate
  | taken | dropped
  deriving DecidableEq, Repr

/-- A delayed task was taken: the item, the time, and the items left in the queue. -/
structure TimerRun where
  item : TimerItem
  now : UInt64
  left : List TimerItem
  deriving DecidableEq, Repr

structure Queues where
  queue : List Task := []
  timerQueue : List TimerItem := []
  accepted : List Task := []
  acceptedTimers : List TimerItem := []
  /-- The tasks that have left the queues, in order. -/
  gone : List (Task × Fate) := []
  goneTimers : List (TimerItem × Fate) := []
  timerRuns : List TimerRun := []
  deriving DecidableEq, Repr

namespace Queues

def push (q : Queues) (task : Task) : Queues :=
  { q with queue := q.queue ++ [task], accepted := q.accepted ++ [task] }

def pushTimer (q : Queues) (item : TimerItem) : Queues :=
  { q with
    timerQueue := q.timerQueue ++ [item]
    acceptedTimers := q.acceptedTimers ++ [item] }

/-- The front is taken. -/
def pop (q : Queues) (task : Task) (rest : List Task) : Queues :=
  { q with queue := rest, gone := q.gone ++ [(task, .taken)] }

/-- An item with the smallest `exec_time`; `i` is where it is. -/
def top (q : Queues) (i : ℕ) : Option TimerItem :=
  q.timerQueue[i]?.filter fun item => q.timerQueue.all fun x => item.execTime ≤ x.execTime

/-- The top is taken. -/
def popTimer (q : Queues) (i : ℕ) (item : TimerItem) (now : UInt64) : Queues :=
  { q with
    timerQueue := q.timerQueue.eraseIdx i
    goneTimers := q.goneTimers ++ [(item, .taken)]
    timerRuns := q.timerRuns ++ [⟨item, now, q.timerQueue.eraseIdx i⟩] }

/-- Both queues are swapped with empty ones. -/
def clear (q : Queues) : Queues :=
  { q with
    queue := []
    timerQueue := []
    gone := q.gone ++ q.queue.map (·, .dropped)
    goneTimers := q.goneTimers ++ q.timerQueue.map (·, .dropped) }

end Queues

/-! ### Where the threads are -/

def queueCap : ℕ := 63

inductive Kind
  | bg (full : ℕ)
  | pool (workerNum : ℕ)
  deriving DecidableEq, Repr

/-- `full_`, or `QUEUE_CAP`. -/
def Kind.full : Kind → ℕ
  | .bg full => full
  | .pool _ => queueCap

def Kind.workers : Kind → ℕ
  | .bg _ => 1
  | .pool workerNum => workerNum

inductive CallPc
  /-- `Schedule`, up to its last test of `should_stop()`. -/
  | lock (task : Task)
  | test (task : Task)
  | wait (task : Task)
  | asleep (task : Task)
  | relock (task : Task)
  | push (task : Task)
  /-- `DelaySchedule`. -/
  | delayLock (item : TimerItem)
  | delayPush (item : TimerItem)
  /-- The signal of both. -/
  | signal
  /-- `QueueClear`. -/
  | clearLock
  | clear
  | clearSignal
  | unlock
  | done
  deriving DecidableEq, Repr

inductive WorkerPc
  /-- The head of the loop of `ThreadMain`, and of `WorkerRun`. -/
  | top
  | lock
  | test
  | wait
  | asleep
  | relock
  | check
  | leave
  | serve
  | timedWait
  | timedAsleep
  | timedRelock
  | timedUnlock
  | serveQueue
  | signal (task : Task)
  | unlockRun (task : Task)
  | run (task : Task)
  /-- The first loop of `SwallowReadyTasks`. -/
  | swallowLock
  | swallow
  | swallowUnlock (task : Task)
  | swallowRun (task : Task)
  /-- The second loop of `SwallowReadyTasks`, with the time it has read. -/
  | swallowNow
  | timersLock (unow : UInt64)
  | timers (unow : UInt64)
  | timersUnlock (unow : UInt64) (task : Task)
  | timersRun (unow : UInt64) (task : Task)
  | exited
  deriving DecidableEq, Repr

inductive StopperPc
  | idle | signalR | signalW | joining | joined
  deriving DecidableEq, Repr

inductive Owner
  | call (i : ℕ)
  | worker (w : ℕ)
  deriving DecidableEq, Repr

structure State where
  q : Queues := {}
  /-- Who holds `mu_`. -/
  holder : Option Owner := none
  shouldStop : Bool := false
  calls : List CallPc := []
  workers : List WorkerPc := []
  stopper : StopperPc := .idle
  deriving DecidableEq, Repr

/-- The threads have been started. -/
def start (k : Kind) : State := { workers := List.replicate k.workers .top }

namespace State

def lock (s : State) (o : Owner) : Option State :=
  if s.holder = none then some { s with holder := some o } else none

def unlock (s : State) : State := { s with holder := none }

def setCall (s : State) (i : ℕ) (pc : CallPc) : State := { s with calls := s.calls.set i pc }

def setWorker (s : State) (w : ℕ) (pc : WorkerPc) : State :=
  { s with workers := s.workers.set w pc }

end State

/-! ### The condition variables -/

/-- A call that is woken. -/
def CallPc.woken : CallPc → CallPc
  | .asleep task => .relock task
  | pc => pc

/-- A worker that is woken. -/
def WorkerPc.woken : WorkerPc → WorkerPc
  | .asleep => .relock
  | .timedAsleep => .timedRelock
  | pc => pc

/-- A call is blocked in `wsignal_.Wait`. -/
def CallPc.isAsleep : CallPc → Bool
  | .asleep _ => true
  | _ => false

/-- A worker is blocked in `rsignal_.Wait` or `rsignal_.TimedWait`. -/
def WorkerPc.isAsleep : WorkerPc → Bool
  | .asleep | .timedAsleep => true
  | _ => false

namespace State

/-- `wsignal_.Signal()`: one of the waiting threads is woken, if there is one. -/
def signalW (s : State) : Option ℕ → Option State
  | none => if s.calls.any CallPc.isAsleep then none else some s
  | some i => (s.calls[i]?.filter CallPc.isAsleep).map fun pc => s.setCall i pc.woken

/-- `rsignal_.Signal()`. -/
def signalR (s : State) : Option ℕ → Option State
  | none => if s.workers.any WorkerPc.isAsleep then none else some s
  | some w => (s.workers[w]?.filter WorkerPc.isAsleep).map fun pc => s.setWorker w pc.woken

def signalAllW (s : State) : State := { s with calls := s.calls.map CallPc.woken }

def signalAllR (s : State) : State := { s with workers := s.workers.map WorkerPc.woken }

end State

/-! ### The steps -/

section Steps
variable (k : Kind) (s : State)

/-- One step of call `i`; `wake` is the thread its signal wakes. -/
def callStep (i : ℕ) (wake : Option ℕ) : CallPc → Option State
  | .lock task => (s.lock (.call i)).map (·.setCall i (.test task))
  | .test task =>
    some (s.setCall i (if s.q.queue.length ≥ k.full ∧ ¬s.shouldStop then .wait task else .push task))
  | .wait task => some (s.unlock.setCall i (.asleep task))
  | .asleep _ => none
  | .relock task => (s.lock (.call i)).map (·.setCall i (.test task))
  | .push task =>
    some (if s.shouldStop then s.setCall i .unlock
      else State.setCall { s with q := s.q.push task } i .signal)
  | .delayLock item => (s.lock (.call i)).map (·.setCall i (.delayPush item))
  | .delayPush item =>
    some (if s.shouldStop then s.setCall i .unlock
      else State.setCall { s with q := s.q.pushTimer item } i .signal)
  | .signal => (s.signalR wake).map (·.setCall i .unlock)
  | .clearLock => (s.lock (.call i)).map (·.setCall i .clear)
  | .clear => some (State.setCall { s with q := s.q.clear } i .clearSignal)
  | .clearSignal => (s.signalW wake).map (·.setCall i .unlock)
  | .unlock => some (s.unlock.setCall i .done)
  | .done => none

/-- Behind the loop. -/
def Kind.afterLoop : Kind → WorkerPc
  | .bg _ => .swallowLock
  | .pool _ => .exited

/-- Behind the test of `should_stop()` with the lock: a `break`, or the `return` of `RunOnce`. -/
def Kind.afterStop : Kind → WorkerPc
  | .bg _ => .swallowLock
  | .pool _ => .top

/-- One step of worker `w`, at `now`; `i` is the top of the priority queue. -/
def workerStep (w : ℕ) (now : UInt64) (i : ℕ) (wake : Option ℕ) : WorkerPc → Option State
  | .top => some (s.setWorker w (if s.shouldStop then k.afterLoop else .lock))
  | .lock => (s.lock (.worker w)).map (·.setWorker w .test)
  | .test =>
    some (s.setWorker w (if s.q.queue = [] ∧ s.q.timerQueue = [] ∧ ¬s.shouldStop then .wait
      else .check))
  | .wait => some (s.unlock.setWorker w .asleep)
  | .asleep => none
  | .relock => (s.lock (.worker w)).map (·.setWorker w .test)
  | .check => some (s.setWorker w (if s.shouldStop then .leave else .serve))
  | .leave => some (s.unlock.setWorker w k.afterStop)
  | .serve =>
    if s.q.timerQueue = [] then some (s.setWorker w .serveQueue)
    else (s.q.top i).map fun item =>
      if now / 1000 ≥ item.execTime / 1000 then
        State.setWorker { s with q := s.q.popTimer i item now } w (.unlockRun item.task)
      else if s.q.queue = [] ∧ ¬s.shouldStop then s.setWorker w .timedWait
      else s.setWorker w .serveQueue
  | .timedWait => some (s.unlock.setWorker w .timedAsleep)
  | .timedAsleep => none
  | .timedRelock => (s.lock (.worker w)).map (·.setWorker w .timedUnlock)
  | .timedUnlock => some (s.unlock.setWorker w .top)
  | .serveQueue =>
    match s.q.queue with
    -- the lock is not given back
    | [] => some (s.setWorker w .top)
    | task :: rest => some (State.setWorker { s with q := s.q.pop task rest } w (.signal task))
  | .signal task => (s.signalW wake).map (·.setWorker w (.unlockRun task))
  | .unlockRun task => some (s.unlock.setWorker w (.run task))
  | .run _ => some (s.setWorker w .top)
  | .swallowLock => (s.lock (.worker w)).map (·.setWorker w .swallow)
  | .swallow =>
    match s.q.queue with
    | [] => some (s.unlock.setWorker w .swallowNow)
    | task :: rest =>
      some (State.setWorker { s with q := s.q.pop task rest } w (.swallowUnlock task))
  | .swallowUnlock task => some (s.unlock.setWorker w (.swallowRun task))
  | .swallowRun _ => some (s.setWorker w .swallowLock)
  | .swallowNow => some (s.setWorker w (.timersLock now))
  | .timersLock unow => (s.lock (.worker w)).map (·.setWorker w (.timers unow))
  | .timers unow =>
    if s.q.timerQueue = [] then some (s.unlock.setWorker w .exited)
    else (s.q.top i).map fun item =>
      if unow / 1000 < item.execTime / 1000 then s.unlock.setWorker w .exited
      else State.setWorker { s with q := s.q.popTimer i item unow } w (.timersUnlock unow item.task)
  | .timersUnlock unow task => some (s.unlock.setWorker w (.timersRun unow task))
  | .timersRun unow _ => some (s.setWorker w (.timersLock unow))
  | .exited => none

/-- One step of the thread that stops: `StopThread`, or `stop_thread_pool`. -/
def stopStep (wake : Option ℕ) : Option State :=
  match s.stopper with
  | .idle => some { s with shouldStop := true, stopper := .signalR }
  | .signalR =>
    (match k with
      | .bg _ => s.signalR wake
      | .pool _ => some s.signalAllR).map fun s : State => { s with stopper := .signalW }
  | .signalW =>
    (match k with
      | .bg _ => s.signalW wake
      | .pool _ => some s.signalAllW).map fun s : State => { s with stopper := .joining }
  | .joining =>
    if s.workers.all (· = .exited) then some { s with stopper := .joined } else none
  | .joined => none

inductive Label
  | schedule (task : Task)
  | delaySchedule (timeout now : UInt64) (task : Task)
  /-- `BGThread` only. -/
  | queueClear
  | call (i : ℕ) (wake : Option ℕ)
  | worker (w : ℕ) (now : UInt64) (i : ℕ) (wake : Option ℕ)
  | stop (wake : Option ℕ)
  /-- A `TimedWait` is over. -/
  | timeout (w : ℕ)
  /-- A wait is over without a signal. -/
  | wakeCall (i : ℕ)
  | wakeWorker (w : ℕ)
  deriving DecidableEq, Repr

/-- One step; `none` when it cannot happen. -/
def stepOption : Label → Option State
  | .schedule task => some { s with calls := s.calls ++ [.lock task] }
  | .delaySchedule timeout now task =>
    some { s with calls := s.calls ++ [.delayLock (.ofDelay now timeout task)] }
  | .queueClear =>
    match k with
    | .bg _ => some { s with calls := s.calls ++ [.clearLock] }
    | .pool _ => none
  | .call i wake => s.calls[i]?.bind (callStep k s i wake)
  | .worker w now i wake => s.workers[w]?.bind (workerStep k s w now i wake)
  | .stop wake => stopStep k s wake
  | .timeout w =>
    if s.workers[w]? = some .timedAsleep then some (s.setWorker w .timedRelock) else none
  | .wakeCall i => s.signalW (some i)
  | .wakeWorker w => s.signalR (some w)

/-- A step that cannot happen changes nothing. -/
def step (l : Label) : State := (stepOption k s l).getD s

end Steps

/-! ### What locks and signals do -/

section Signals
variable {s s' : State}

theorem lock_eq {o : Owner} (h : s.lock o = some s') :
    s.holder = none ∧ s' = { s with holder := some o } := by
  unfold State.lock at h
  split_ifs at h with hf
  exact ⟨hf, (Option.some.inj h).symm⟩

/-- A signal wakes one call that is asleep, or there is none. -/
theorem signalW_cases {wake : Option ℕ} (h : s.signalW wake = some s') :
    (s' = s ∧ s.calls.any CallPc.isAsleep = false) ∨
    ∃ j pc, s.calls[j]? = some pc ∧ pc.isAsleep = true ∧ s' = s.setCall j pc.woken := by
  cases wake with
  | none =>
    unfold State.signalW at h
    split_ifs at h with hany
    exact .inl ⟨(Option.some.inj h).symm, by simpa using hany⟩
  | some j =>
    obtain ⟨pc, hpc, rfl⟩ := Option.map_eq_some_iff.mp h
    obtain ⟨hj, ha⟩ := Option.filter_eq_some_iff.mp hpc
    exact .inr ⟨j, pc, hj, ha, rfl⟩

/-- A signal wakes one worker that is asleep, or there is none. -/
theorem signalR_cases {wake : Option ℕ} (h : s.signalR wake = some s') :
    (s' = s ∧ s.workers.any WorkerPc.isAsleep = false) ∨
    ∃ j pc, s.workers[j]? = some pc ∧ pc.isAsleep = true ∧ s' = s.setWorker j pc.woken := by
  cases wake with
  | none =>
    unfold State.signalR at h
    split_ifs at h with hany
    exact .inl ⟨(Option.some.inj h).symm, by simpa using hany⟩
  | some j =>
    obtain ⟨pc, hpc, rfl⟩ := Option.map_eq_some_iff.mp h
    obtain ⟨hj, ha⟩ := Option.filter_eq_some_iff.mp hpc
    exact .inr ⟨j, pc, hj, ha, rfl⟩

end Signals

end Pink.Tasks.Machine
