import Pink.Tasks.Lock

/-! # Stopping and starting a pool

A `ThreadPool` over its whole life: `start_thread_pool` and `stop_thread_pool` are called in turn,
while calls of `Schedule` and `DelaySchedule` go on. `stop_thread_pool` joins the workers but not
the threads that are in `Schedule`; when the pool is started again, such a call may have left its
wait because of the stop, and find `should_stop()` false when it tests it for the second time. It
then pushes its task into a queue that is full (`overfilled`).

The queue is never overfull in every run in which the pool is not started again while such a call is
on its way (`queue_le_cap`). -/

namespace Pink.Tasks.Cycles

open Pink.Lib.Runs Pink.Tasks.Machine Pink.Tasks.Lock

/-! ### The pool -/

structure ThreadPool where
  machine : State := {}
  running : Bool := false
  /-- `start_` of the `workers_`. -/
  workers : List Bool := []
  /-- How far the loop of `start_thread_pool` has got. -/
  starting : Option ℕ := none
  deriving DecidableEq, Repr

inductive Label
  /-- A step of the calls, the workers, and `stop_thread_pool`. -/
  | machine (l : Machine.Label)
  /-- A step of `start_thread_pool`, and whether `pthread_create` succeeds. -/
  | start (created : Bool)
  deriving DecidableEq, Repr

namespace ThreadPool

variable (workerNum : ℕ) (p : ThreadPool)

/-- A step of `stop_thread_pool`, which does nothing unless the pool is running. -/
def stopThreadPool (wake : Option ℕ) : Option ThreadPool :=
  if p.running ∧ p.starting = none then
    if p.machine.stopper = .joined then
      some { p with
        machine := { p.machine with workers := [], stopper := .idle }
        workers := []
        running := false }
    else
      (stopStep (.pool workerNum) p.machine wake).map fun s : State => { p with machine := s }
  else none

/-- A step of `start_thread_pool`, which does nothing if the pool is running. -/
def startThreadPool (created : Bool) : Option ThreadPool :=
  match p.starting with
  | none =>
    if p.running then none
    else some { p with machine := { p.machine with shouldStop := false }, starting := some 0 }
  | some i =>
    if i < workerNum then
      let p := { p with workers := p.workers ++ [false] }
      if p.workers.getD i false then some { p with starting := some (i + 1) }
      else if created then
        some { p with
          machine := { p.machine with workers := p.machine.workers ++ [.top] }
          workers := p.workers.set i true
          starting := some (i + 1) }
      -- `kCreateThreadError`
      else some { p with starting := none }
    else some { p with running := true, starting := none }

/-- One step; `none` when it cannot happen. -/
def stepOption : Label → Option ThreadPool
  | .machine (.stop wake) => p.stopThreadPool workerNum wake
  | .machine l =>
    (Machine.stepOption (.pool workerNum) p.machine l).map fun s : State => { p with machine := s }
  | .start created => p.startThreadPool workerNum created

/-- A step that cannot happen changes nothing. -/
def step (l : Label) : ThreadPool := (p.stepOption workerNum l).getD p

end ThreadPool

open ThreadPool

/-! ### What should hold -/

/-- The call is at its second test of `should_stop()`. -/
def pushing : CallPc → Bool
  | .push _ => true
  | _ => false

/-- The pool is not started again while a call of `Schedule` is between its tests of `should_stop()`
and the queue is full. -/
def Settled (p : ThreadPool) : Label → Prop
  | .start _ => p.starting = none → p.running = false →
      p.machine.calls.any pushing = true → p.machine.q.queue.length < queueCap
  | .machine _ => True

instance (p : ThreadPool) : ∀ l, Decidable (Settled p l)
  | .start _ => inferInstanceAs (Decidable (_ → _ → _ → _))
  | .machine _ => .isTrue trivial

/-! ### What a step does to the queue -/

/-- A step that pushes no task and lets no call go on to its push. -/
structure Calm (s s' : State) : Prop where
  length : s'.q.queue.length ≤ s.q.queue.length
  flag : s.shouldStop = true → s'.shouldStop = true
  calls : ∀ i : ℕ, s'.calls[i]?.any pushing = true → s.calls[i]?.any pushing = true

section Calm
variable {n : ℕ} {s s' s'' : State}

theorem Calm.trans (h : Calm s s') (h' : Calm s' s'') : Calm s s'' :=
  ⟨h'.length.trans h.length, fun hf => h'.flag (h.flag hf), fun i hi => h.calls i (h'.calls i hi)⟩

theorem calm_setCall {q : Queues} (hq : q.queue.length ≤ s.q.queue.length) (holder : Option Owner)
    (i : ℕ) {pc : CallPc} (hpc : pushing pc = false) :
    Calm s (State.setCall { s with q, holder } i pc) := by
  refine ⟨hq, id, fun j hj => ?_⟩
  simp only [State.setCall, List.getElem?_set] at hj
  split_ifs at hj
  · simp [hpc] at hj
  · simp at hj
  · exact hj

theorem calm_setWorker {q : Queues} (hq : q.queue.length ≤ s.q.queue.length)
    (holder : Option Owner) (w : ℕ) (pc : WorkerPc) :
    Calm s (State.setWorker { s with q, holder } w pc) := ⟨hq, id, fun _ hj => hj⟩

theorem calm_signalW {wake : Option ℕ} (h : s.signalW wake = some s') : Calm s s' := by
  rcases signalW_cases h with ⟨rfl, -⟩ | ⟨j, pc, -, ha, rfl⟩
  · exact ⟨le_rfl, id, fun _ hj => hj⟩
  · refine calm_setCall (q := s.q) le_rfl s.holder j ?_
    cases pc <;> simp_all [CallPc.isAsleep, CallPc.woken, pushing]

theorem calm_signalR {wake : Option ℕ} (h : s.signalR wake = some s') : Calm s s' := by
  rcases signalR_cases h with ⟨rfl, -⟩ | ⟨j, pc, -, -, rfl⟩
  · exact ⟨le_rfl, id, fun _ hj => hj⟩
  · exact calm_setWorker (q := s.q) le_rfl s.holder j pc.woken

theorem calm_signalAllW (s : State) : Calm s s.signalAllW := by
  refine ⟨le_rfl, id, fun i hi => ?_⟩
  simp only [State.signalAllW, List.getElem?_map] at hi
  cases hpc : s.calls[i]? with
  | none => simp [hpc] at hi
  | some pc =>
    rw [hpc] at hi
    cases pc <;> simp_all [CallPc.woken, pushing]

theorem workerStep_calm {w : ℕ} {now : UInt64} {i : ℕ} {wake : Option ℕ} {pc : WorkerPc}
    (h : workerStep (.pool n) s w now i wake pc = some s') : Calm s s' := by
  have hkeep : ∀ holder pc', some (State.setWorker { s with holder } w pc') = some s' →
      Calm s s' := fun holder pc' h =>
    Option.some.inj h ▸ calm_setWorker (q := s.q) le_rfl holder w pc'
  have hpop : ∀ {task rest} pc', s.q.queue = task :: rest →
      some (State.setWorker { s with q := s.q.pop task rest } w pc') = some s' → Calm s s' := by
    intro task rest pc' hq h
    exact Option.some.inj h ▸
      calm_setWorker (q := s.q.pop task rest) (by simp [hq, Queues.pop]) _ w pc'
  have htimer : ∀ j item t pc',
      some (State.setWorker { s with q := s.q.popTimer j item t } w pc') = some s' → Calm s s' :=
    fun j item t pc' h =>
      Option.some.inj h ▸ calm_setWorker (q := s.q.popTimer j item t) le_rfl s.holder w pc'
  cases pc with
  | lock | relock | timedRelock | swallowLock | timersLock =>
    obtain ⟨s₁, h1, rfl⟩ := Option.map_eq_some_iff.mp h
    obtain ⟨-, rfl⟩ := lock_eq h1
    exact hkeep _ _ rfl
  | asleep | timedAsleep | exited => simp [workerStep] at h
  | wait | leave | timedWait | timedUnlock | unlockRun | swallowUnlock | timersUnlock =>
    exact hkeep none _ h
  | top | test | check | run | swallowRun | swallowNow | timersRun => exact hkeep s.holder _ h
  | serve =>
    dsimp only [workerStep] at h
    by_cases h0 : s.q.timerQueue = []
    · rw [if_pos h0] at h
      exact hkeep s.holder _ h
    · rw [if_neg h0] at h
      obtain ⟨item, -, he⟩ := Option.map_eq_some_iff.mp h
      split_ifs at he
      · exact htimer i item now _ (congrArg some he)
      · exact hkeep s.holder _ (congrArg some he)
      · exact hkeep s.holder _ (congrArg some he)
  | serveQueue =>
    dsimp only [workerStep] at h
    split at h
    · exact hkeep s.holder _ h
    case _ hq => exact hpop _ hq h
  | signal task =>
    obtain ⟨s₁, h1, rfl⟩ := Option.map_eq_some_iff.mp h
    exact (calm_signalW h1).trans (calm_setWorker (q := s₁.q) le_rfl s₁.holder w _)
  | swallow =>
    dsimp only [workerStep] at h
    split at h
    · exact hkeep none _ h
    case _ hq => exact hpop _ hq h
  | timers unow =>
    dsimp only [workerStep] at h
    by_cases h0 : s.q.timerQueue = []
    · rw [if_pos h0] at h
      exact hkeep none _ h
    · rw [if_neg h0] at h
      obtain ⟨item, -, he⟩ := Option.map_eq_some_iff.mp h
      split_ifs at he
      · exact hkeep none _ (congrArg some he)
      · exact htimer i item unow _ (congrArg some he)

/-- A call pushes a task only in its second test of `should_stop()`, and goes there only from its
first. -/
theorem callStep_calm {i : ℕ} {wake : Option ℕ} {pc : CallPc}
    (htest : ∀ task, pc ≠ .test task) (hpush : ∀ task, pc ≠ .push task)
    (h : callStep (.pool n) s i wake pc = some s') : Calm s s' := by
  cases pc with
  | test task => exact absurd rfl (htest task)
  | push task => exact absurd rfl (hpush task)
  | lock | relock | delayLock | clearLock =>
    obtain ⟨s₁, h1, rfl⟩ := Option.map_eq_some_iff.mp h
    obtain ⟨-, rfl⟩ := lock_eq h1
    exact calm_setCall (q := s.q) le_rfl _ i rfl
  | asleep | done => simp [callStep] at h
  | wait | unlock => exact Option.some.inj h ▸ calm_setCall (q := s.q) le_rfl none i rfl
  | delayPush item =>
    obtain rfl := Option.some.inj h
    split_ifs
    · exact calm_setCall (q := s.q) le_rfl s.holder i rfl
    · exact calm_setCall (q := s.q.pushTimer item) le_rfl s.holder i rfl
  | signal =>
    obtain ⟨s₁, h1, rfl⟩ := Option.map_eq_some_iff.mp h
    exact (calm_signalR h1).trans (calm_setCall (q := s₁.q) le_rfl s₁.holder i rfl)
  | clear =>
    obtain rfl := Option.some.inj h
    exact calm_setCall (q := s.q.clear) (by simp [Queues.clear]) s.holder i rfl
  | clearSignal =>
    obtain ⟨s₁, h1, rfl⟩ := Option.map_eq_some_iff.mp h
    exact (calm_signalW h1).trans (calm_setCall (q := s₁.q) le_rfl s₁.holder i rfl)

theorem stopStep_calm {wake : Option ℕ} (h : stopStep (.pool n) s wake = some s') :
    Calm s s' := by
  unfold stopStep at h
  split at h
  · exact Option.some.inj h ▸ ⟨le_rfl, fun _ => rfl, fun _ hi => hi⟩
  · exact Option.some.inj h ▸ ⟨le_rfl, id, fun _ hi => hi⟩
  · obtain rfl := Option.some.inj h
    exact ⟨le_rfl, id, (calm_signalAllW s).calls⟩
  · split_ifs at h
    exact Option.some.inj h ▸ ⟨le_rfl, id, fun _ hi => hi⟩
  · simp at h

theorem calm_addCall (s : State) {pc : CallPc} (hpc : pushing pc = false) :
    Calm s { s with calls := s.calls ++ [pc] } := by
  refine ⟨le_rfl, id, fun i hi => ?_⟩
  simp only [List.getElem?_append, List.getElem?_singleton] at hi
  split_ifs at hi
  · exact hi
  · simp [hpc] at hi
  · simp at hi

end Calm

/-! ### The invariant -/

/-- The queue has room for a call that is about to push, unless it will find `should_stop()` set. -/
structure Inv (s : State) : Prop where
  locked : Locked s
  bounded : s.q.queue.length ≤ queueCap
  room : ∀ i : ℕ, s.calls[i]?.any pushing = true →
    s.shouldStop = true ∨ s.q.queue.length < queueCap

section Inv
variable {n : ℕ} {s s' : State}

theorem Inv.calm (h : Inv s) (hc : Calm s s') (hl : Locked s') : Inv s' := by
  refine ⟨hl, hc.length.trans h.bounded, fun i hi => ?_⟩
  rcases h.room i (hc.calls i hi) with hr | hr
  · exact .inl (hc.flag hr)
  · exact .inr (lt_of_le_of_lt hc.length hr)

theorem inside_of_pushing {i : ℕ} (h : s.calls[i]?.any pushing = true) :
    inside s (.call i) = true := by
  cases hpc : s.calls[i]? with
  | none => simp [hpc] at h
  | some pc =>
    rw [hpc] at h
    cases pc <;> simp_all [pushing, inside, callHolds]

theorem Inv.test (h : Inv s) {i : ℕ} {task : Task} {wake : Option ℕ}
    (hpc : s.calls[i]? = some (.test task))
    (hs : callStep (.pool n) s i wake (.test task) = some s') : Inv s' := by
  have hl := h.locked.turn (callStep_turn hpc hs)
  obtain rfl := Option.some.inj hs
  refine ⟨hl, h.bounded, fun j hj => ?_⟩
  by_cases hij : i = j
  · subst hij
    show s.shouldStop = true ∨ s.q.queue.length < queueCap
    by_cases hc : s.q.queue.length ≥ queueCap ∧ ¬s.shouldStop = true
    · -- it goes on to wait
      simp [State.setCall, Kind.full, hc, List.getElem?_set] at hj
      split_ifs at hj <;> simp [pushing] at hj
    · by_cases hf : s.shouldStop = true
      · exact .inl hf
      · exact .inr (by by_contra hlt; exact hc ⟨not_lt.mp hlt, hf⟩)
  · refine h.room j ?_
    simpa [State.setCall, List.getElem?_set_ne hij] using hj

theorem Inv.push (h : Inv s) {i : ℕ} {task : Task} {wake : Option ℕ}
    (hpc : s.calls[i]? = some (.push task))
    (hs : callStep (.pool n) s i wake (.push task) = some s') : Inv s' := by
  have hl := h.locked.turn (callStep_turn hpc hs)
  obtain rfl := Option.some.inj hs
  by_cases hf : s.shouldStop = true
  · rw [if_pos hf] at hl ⊢
    exact h.calm (calm_setCall (q := s.q) le_rfl s.holder i rfl) hl
  rw [if_neg hf] at hl ⊢
  have hp : s.calls[i]?.any pushing = true := by simp [hpc, pushing]
  have hroom := (h.room i hp).resolve_left hf
  refine ⟨hl, by simpa [State.setCall, Queues.push] using hroom, fun j hj => ?_⟩
  -- the others that are about to push would have the lock as well
  exfalso
  have hne : i ≠ j := by
    rintro rfl
    simp only [State.setCall, List.getElem?_set] at hj
    split_ifs at hj <;> simp [pushing] at hj
  have hj' : s.calls[j]?.any pushing = true := by
    simpa [State.setCall, List.getElem?_set_ne hne] using hj
  have h1 := h.locked _ (inside_of_pushing hp)
  rw [h.locked _ (inside_of_pushing hj')] at h1
  simp only [Option.some.injEq, Owner.call.injEq] at h1
  exact hne h1.symm

/-- A step of the machine keeps the invariant. -/
theorem Inv.machine (h : Inv s) {l : Machine.Label}
    (hs : Machine.stepOption (.pool n) s l = some s') : Inv s' := by
  have hl := stepOption_locked h.locked hs
  cases l with
  | schedule task =>
    obtain rfl := Option.some.inj hs
    exact h.calm (calm_addCall s rfl) hl
  | delaySchedule timeout now task =>
    obtain rfl := Option.some.inj hs
    exact h.calm (calm_addCall s rfl) hl
  | queueClear => simp [Machine.stepOption] at hs
  | call i wake =>
    obtain ⟨pc, hpc, hs⟩ := Option.bind_eq_some_iff.mp hs
    by_cases htest : ∃ task, pc = .test task
    · obtain ⟨task, rfl⟩ := htest
      exact h.test hpc hs
    by_cases hpush : ∃ task, pc = .push task
    · obtain ⟨task, rfl⟩ := hpush
      exact h.push hpc hs
    exact h.calm (callStep_calm (not_exists.mp htest) (not_exists.mp hpush) hs) hl
  | worker w now i wake =>
    obtain ⟨pc, -, hs⟩ := Option.bind_eq_some_iff.mp hs
    exact h.calm (workerStep_calm hs) hl
  | stop wake =>
    have hstop : stopStep (.pool n) s wake = some s' := hs
    exact h.calm (stopStep_calm hstop) hl
  | timeout w =>
    dsimp only [Machine.stepOption] at hs
    split_ifs at hs
    obtain rfl := Option.some.inj hs
    exact h.calm (calm_setWorker (q := s.q) le_rfl s.holder w _) hl
  | wakeCall i =>
    have hw : s.signalW (some i) = some s' := hs
    exact h.calm (calm_signalW hw) hl
  | wakeWorker w =>
    have hw : s.signalR (some w) = some s' := hs
    exact h.calm (calm_signalR hw) hl

end Inv

/-! ### Runs -/

section Runs
variable {n : ℕ}

theorem stopThreadPool_inv {p p' : ThreadPool} {wake : Option ℕ} (h : Inv p.machine)
    (hs : p.stopThreadPool n wake = some p') : Inv p'.machine := by
  unfold stopThreadPool at hs
  split_ifs at hs with hr hj
  · obtain rfl := Option.some.inj hs
    refine h.calm ⟨le_rfl, id, fun _ hi => hi⟩ ?_
    rintro (i | w) ho
    · exact h.locked (.call i) ho
    · simp [inside] at ho
  · obtain ⟨s', hs', rfl⟩ := Option.map_eq_some_iff.mp hs
    have hstep : Machine.stepOption (.pool n) p.machine (.stop wake) = some s' := hs'
    exact h.machine hstep

theorem startThreadPool_inv {p p' : ThreadPool} {created : Bool} (h : Inv p.machine)
    (hset : Settled p (.start created)) (hs : p.startThreadPool n created = some p') :
    Inv p'.machine := by
  unfold startThreadPool at hs
  split at hs
  case _ hnone =>
    split_ifs at hs with hr
    obtain rfl := Option.some.inj hs
    refine ⟨fun o ho => h.locked o (by cases o <;> exact ho), h.bounded, fun i hi => .inr ?_⟩
    refine hset hnone (by simpa using hr) ?_
    cases hpc : p.machine.calls[i]? with
    | none => simp [hpc] at hi
    | some pc =>
      rw [hpc] at hi
      exact List.any_eq_true.mpr ⟨pc, List.mem_of_getElem? hpc, hi⟩
  case _ i _ =>
    dsimp only at hs
    split_ifs at hs
    · exact Option.some.inj hs ▸ h
    · obtain rfl := Option.some.inj hs
      refine h.calm ⟨le_rfl, id, fun _ hi => hi⟩ ?_
      rintro (i | w) ho
      · exact h.locked (.call i) ho
      · refine h.locked (.worker w) ?_
        simp only [inside, List.getElem?_append, List.getElem?_singleton] at ho ⊢
        split_ifs at ho
        · exact ho
        · simp [workerHolds] at ho
        · simp at ho
    · exact Option.some.inj hs ▸ h
    · exact Option.some.inj hs ▸ h

theorem step_inv {p : ThreadPool} {l : Label} (h : Inv p.machine) (hset : Settled p l) :
    Inv (p.step n l).machine := by
  unfold ThreadPool.step
  cases hs : p.stepOption n l with
  | none => exact h
  | some p' =>
    cases l with
    | start created => exact startThreadPool_inv h hset hs
    | machine l =>
      cases l with
      | stop wake => exact stopThreadPool_inv h hs
      | _ =>
        dsimp only [ThreadPool.stepOption] at hs
        obtain ⟨s', hs', rfl⟩ := Option.map_eq_some_iff.mp hs
        exact h.machine hs'

theorem inv_new : Inv ({} : ThreadPool).machine :=
  ⟨by rintro (i | w) ho <;> simp [inside] at ho, by decide, fun i hi => by simp at hi⟩

variable (n)

theorem run_inv_pool {ls : List Label} (h : Guarded (step n) Settled {} ls) :
    Inv (run (step n) {} ls).machine :=
  run_inv (fun p : ThreadPool => Inv p.machine) (fun _ _ hp hl => step_inv hp hl) inv_new h

/-- **The queue of a pool is never overfull**, however often the pool is stopped and started again,
in every run in which it is not started again while a call of `Schedule` is on its way past a full
queue. -/
theorem queue_le_cap {ls : List Label} (h : Guarded (step n) Settled {} ls) :
    (run (step n) {} ls).machine.q.queue.length ≤ queueCap := (run_inv_pool n h).bounded

end Runs

/-- The queue of a pool with one worker is filled, and a further call sleeps; it leaves its wait
because of the stop, and has returned when the pool is started again. -/
def cycleRun : List Label := List.flatten [
  List.replicate 3 (.start true),
  (List.range queueCap).flatMap fun i =>
    .machine (.schedule ⟨i, 0⟩) :: List.replicate 5 (.machine (.call i none)),
  .machine (.schedule ⟨queueCap, 0⟩) :: List.replicate 3 (.machine (.call queueCap none)),
  List.replicate 3 (.machine (.stop none)), [.machine (.worker 0 0 0 none)],
  List.replicate 4 (.machine (.call queueCap none)),
  List.replicate 2 (.machine (.stop none)), List.replicate 3 (.start true),
  List.replicate 2 (.machine (.worker 0 0 0 none))]

theorem queue_le_cap_cycleRun : (run (step 1) {} cycleRun).machine.q.queue.length ≤ queueCap :=
  queue_le_cap 1 (by decide +kernel)

/-- Where the condition does not hold, the next step of the call overfills the queue. -/
theorem overfilled_next {n : ℕ} {ls : List Label} {created : Bool}
    (hnot : ¬Settled (run (step n) {} ls) (.start created)) :
    ∃ i, queueCap < (run (step n) {} (ls ++ [.start created,
      .machine (.call i none)])).machine.q.queue.length := by
  simp only [Settled, not_forall, not_lt] at hnot
  obtain ⟨hstart, hrun, hany, hfull⟩ := hnot
  obtain ⟨pc, hmem, hpc⟩ := List.any_eq_true.mp hany
  obtain ⟨i, hi⟩ := List.mem_iff_getElem?.mp hmem
  obtain ⟨task, rfl⟩ : ∃ task, pc = .push task := by
    cases pc with
    | push task => exact ⟨task, rfl⟩
    | _ => simp [pushing] at hpc
  refine ⟨i, ?_⟩
  simp only [run, List.foldl_append, List.foldl_cons, List.foldl_nil] at hstart hrun hi hfull ⊢
  generalize List.foldl (step n) {} ls = p at *
  have h1 : step n p (.start created) = { p with
      machine := { p.machine with shouldStop := false }, starting := some 0 } := by
    simp [ThreadPool.step, ThreadPool.stepOption, startThreadPool, hstart, hrun]
  rw [h1]
  simp only [ThreadPool.step, ThreadPool.stepOption, Machine.stepOption, hi, Option.bind_some,
    callStep, Option.map_some, Option.getD_some, Bool.false_eq_true, if_false, State.setCall,
    Queues.push, List.length_append, List.length_singleton]
  omega

/-- `Schedule` is called `queueCap` times while the pool is running and its worker does nothing, and
once more; the pool is stopped and started again before this call tests `should_stop()` again. -/
def overfullRun : List Label := List.flatten [
  List.replicate 3 (.start true),
  (List.range queueCap).flatMap fun i =>
    .machine (.schedule ⟨i, 0⟩) :: List.replicate 5 (.machine (.call i none)),
  .machine (.schedule ⟨queueCap, 0⟩) :: List.replicate 3 (.machine (.call queueCap none)),
  List.replicate 3 (.machine (.stop none)), [.machine (.worker 0 0 0 none)],
  List.replicate 2 (.machine (.call queueCap none)),
  List.replicate 2 (.machine (.stop none)), [.start true, .machine (.call queueCap none)]]

theorem overfilled :
    queueCap < (run (step 1) {} overfullRun).machine.q.queue.length := by
  decide +kernel

end Pink.Tasks.Cycles
