import Pink.Tasks.Machine

/-! # The account of the tasks

What the queues are for: every task that was accepted is taken once, still queued, or was dropped by
`QueueClear`; tasks leave the queue in the order in which they were accepted; and a delayed task is
taken when its time has come and none of the delayed tasks has an earlier one (`Accounted`).

The queues change in six ways only (`Change`), whatever the threads do. The time of a delayed task
is a `uint64_t`, so that a time-out that is too large wraps around and the task is taken too early
(`wrapped_taken_early`); in every run in which no accepted time-out wraps, the account is right
(`run_accounted`). -/

namespace Pink.Tasks.Accounting

open Pink.Lib.Runs Pink.Tasks.Machine

/-! ### What should hold -/

section Counts
variable (q : Queues)

/-- The tasks of both queues with a fate. -/
def withFate (f : Fate) : Multiset Task :=
  ((q.gone.filter (·.2 = f)).map Prod.fst : List Task) +
    ((q.goneTimers.filter (·.2 = f)).map (·.1.task) : List Task)

def acceptedTasks : Multiset Task :=
  (q.accepted : Multiset Task) + (q.acceptedTimers.map (·.task) : List Task)

def queuedTasks : Multiset Task :=
  (q.queue : Multiset Task) + (q.timerQueue.map (·.task) : List Task)

end Counts

/-- A delayed task was taken when it was due, and before those that are due later. -/
def TimerRun.InTime (r : TimerRun) : Prop :=
  r.item.due / 1000 ≤ r.now.toNat / 1000 ∧ ∀ x ∈ r.left, r.item.due ≤ x.due

structure Accounted (q : Queues) : Prop where
  tasks : acceptedTasks q = withFate q .taken + queuedTasks q + withFate q .dropped
  order : q.accepted = q.gone.map Prod.fst ++ q.queue
  runs : (q.goneTimers.filter (·.2 = .taken)).map Prod.fst = q.timerRuns.map TimerRun.item
  inTime : ∀ r ∈ q.timerRuns, TimerRun.InTime r

/-- A delayed task is accepted only with a time that does not wrap around. -/
def Unwrapped (s : State) : Label → Prop
  | .call i _ =>
    match s.calls[i]? with
    | some (.delayPush item) => s.shouldStop = false → item.due < 2 ^ 64
    | _ => True
  | _ => True

instance (s : State) (l : Label) : Decidable (Unwrapped s l) := by
  cases l with
  | call i wake =>
    unfold Unwrapped
    dsimp only
    split <;> infer_instance
  | _ => exact .isTrue trivial

/-! ### How the queues change -/

/-- One step of the queues; `P` holds of the delayed tasks that are accepted. -/
inductive Change (P : TimerItem → Prop) (q : Queues) : Queues → Prop
  | same : Change P q q
  | push (task : Task) : Change P q (q.push task)
  | pushTimer {item : TimerItem} (hp : P item) : Change P q (q.pushTimer item)
  | pop {task : Task} {rest : List Task} (hq : q.queue = task :: rest) : Change P q (q.pop task rest)
  | popTimer {i : ℕ} {item : TimerItem} {now : UInt64} (ht : q.top i = some item)
      (hnow : item.execTime / 1000 ≤ now / 1000) : Change P q (q.popTimer i item now)
  | clear : Change P q q.clear

section Steps
variable {P : TimerItem → Prop} {k : Kind} {s s' : State}

/-- The lock, the signals and the places of the threads are not part of the queues. -/
theorem q_lock {o : Owner} (h : s.lock o = some s') : s'.q = s.q := by
  obtain ⟨-, rfl⟩ := lock_eq h
  rfl

theorem q_signalW {wake : Option ℕ} (h : s.signalW wake = some s') : s'.q = s.q := by
  rcases signalW_cases h with ⟨rfl, -⟩ | ⟨j, pc, -, -, rfl⟩ <;> rfl

theorem q_signalR {wake : Option ℕ} (h : s.signalR wake = some s') : s'.q = s.q := by
  rcases signalR_cases h with ⟨rfl, -⟩ | ⟨j, pc, -, -, rfl⟩ <;> rfl

theorem change_map {x : Option State} {f : State → State} (h : x.map f = some s')
    (hx : ∀ s₁, x = some s₁ → s₁.q = s.q) (hf : ∀ s₁, (f s₁).q = s₁.q) : Change P s.q s'.q := by
  obtain ⟨s₁, h1, rfl⟩ := Option.map_eq_some_iff.mp h
  rw [hf, hx s₁ h1]
  exact .same

theorem callStep_change {i : ℕ} {wake : Option ℕ} {pc : CallPc}
    (hP : ∀ item, pc = .delayPush item → s.shouldStop = false → P item)
    (h : callStep k s i wake pc = some s') : Change P s.q s'.q := by
  cases pc with
  | lock task =>
    exact change_map h (fun _ => q_lock) fun _ => rfl
  | test task => exact Option.some.inj h ▸ .same
  | wait task => exact Option.some.inj h ▸ .same
  | asleep task => simp [callStep] at h
  | relock task =>
    exact change_map h (fun _ => q_lock) fun _ => rfl
  | push task =>
    obtain rfl := Option.some.inj h
    split_ifs
    · exact .same
    · exact .push task
  | delayLock item =>
    exact change_map h (fun _ => q_lock) fun _ => rfl
  | delayPush item =>
    obtain rfl := Option.some.inj h
    split_ifs with hs
    · exact .same
    · exact .pushTimer (hP item rfl (by simpa using hs))
  | signal =>
    exact change_map h (fun _ => q_signalR) fun _ => rfl
  | clearLock =>
    exact change_map h (fun _ => q_lock) fun _ => rfl
  | clear => exact Option.some.inj h ▸ .clear
  | clearSignal =>
    exact change_map h (fun _ => q_signalW) fun _ => rfl
  | unlock => exact Option.some.inj h ▸ .same
  | done => simp [callStep] at h

theorem workerStep_change {w : ℕ} {now : UInt64} {i : ℕ} {wake : Option ℕ} {pc : WorkerPc}
    (h : workerStep k s w now i wake pc = some s') : Change P s.q s'.q := by
  cases pc with
  | lock | relock | timedRelock | swallowLock | timersLock =>
    exact change_map h (fun _ => q_lock) fun _ => rfl
  | asleep | timedAsleep | exited => simp [workerStep] at h
  | serve =>
    dsimp only [workerStep] at h
    by_cases h0 : s.q.timerQueue = []
    · rw [if_pos h0] at h
      exact Option.some.inj h ▸ .same
    · rw [if_neg h0] at h
      obtain ⟨item, ht, rfl⟩ := Option.map_eq_some_iff.mp h
      split_ifs with h1
      · exact .popTimer ht h1
      · exact .same
      · exact .same
  | serveQueue =>
    dsimp only [workerStep] at h
    split at h
    · exact Option.some.inj h ▸ .same
    case _ task rest hq => exact Option.some.inj h ▸ .pop hq
  | signal task =>
    exact change_map h (fun _ => q_signalW) fun _ => rfl
  | swallow =>
    dsimp only [workerStep] at h
    split at h
    · exact Option.some.inj h ▸ .same
    case _ task rest hq => exact Option.some.inj h ▸ .pop hq
  | timers unow =>
    dsimp only [workerStep] at h
    by_cases h0 : s.q.timerQueue = []
    · rw [if_pos h0] at h
      exact Option.some.inj h ▸ .same
    · rw [if_neg h0] at h
      obtain ⟨item, ht, rfl⟩ := Option.map_eq_some_iff.mp h
      split_ifs with h1
      · exact .same
      · exact .popTimer ht (by simpa using h1)
  | top | test | wait | check | leave | timedWait | timedUnlock | unlockRun | run |
    swallowUnlock | swallowRun | swallowNow | timersUnlock | timersRun =>
    exact Option.some.inj h ▸ .same

theorem stopStep_change {wake : Option ℕ} (h : stopStep k s wake = some s') :
    Change P s.q s'.q := by
  unfold stopStep at h
  split at h
  · exact Option.some.inj h ▸ .same
  · cases k with
    | bg full => exact change_map h (fun _ => q_signalR) fun _ => rfl
    | pool workerNum => exact Option.some.inj h ▸ .same
  · cases k with
    | bg full => exact change_map h (fun _ => q_signalW) fun _ => rfl
    | pool workerNum => exact Option.some.inj h ▸ .same
  · split_ifs at h
    exact Option.some.inj h ▸ .same
  · simp at h

/-- **The queues change in six ways only.** -/
theorem stepOption_change {l : Label}
    (hP : ∀ i wake item, l = .call i wake → s.calls[i]? = some (.delayPush item) →
      s.shouldStop = false → P item)
    (h : stepOption k s l = some s') : Change P s.q s'.q := by
  cases l with
  | schedule task => exact Option.some.inj h ▸ .same
  | delaySchedule timeout now task => exact Option.some.inj h ▸ .same
  | queueClear =>
    cases k with
    | bg full => exact Option.some.inj h ▸ .same
    | pool workerNum => simp [stepOption] at h
  | call i wake =>
    obtain ⟨pc, hpc, h⟩ := Option.bind_eq_some_iff.mp h
    refine callStep_change (fun item he hs => ?_) h
    subst he
    exact hP i wake item rfl hpc hs
  | worker w now i wake =>
    obtain ⟨pc, -, h⟩ := Option.bind_eq_some_iff.mp h
    exact workerStep_change h
  | stop wake => exact stopStep_change h
  | timeout w =>
    dsimp only [stepOption] at h
    split_ifs at h
    exact Option.some.inj h ▸ .same
  | wakeCall i =>
    have hs : s.signalW (some i) = some s' := h
    rw [q_signalW hs]
    exact .same
  | wakeWorker w =>
    have hs : s.signalR (some w) = some s' := h
    rw [q_signalR hs]
    exact .same

theorem step_change {l : Label}
    (hP : ∀ i wake item, l = .call i wake → s.calls[i]? = some (.delayPush item) →
      s.shouldStop = false → P item) : Change P s.q (step k s l).q := by
  unfold step
  cases h : stepOption k s l with
  | none => exact .same
  | some s' => exact stepOption_change hP h

end Steps

/-! ### Every change keeps the account -/

/-- The account that holds of every run: nothing is lost, repeated or reordered. -/
structure Kept (q : Queues) : Prop where
  order : q.accepted = q.gone.map Prod.fst ++ q.queue
  timers : (q.acceptedTimers : Multiset TimerItem) =
    (q.goneTimers.map Prod.fst : List TimerItem) + (q.timerQueue : Multiset TimerItem)
  runs : (q.goneTimers.filter (·.2 = .taken)).map Prod.fst = q.timerRuns.map TimerRun.item

theorem top_mem {q : Queues} {i : ℕ} {item : TimerItem} (h : q.top i = some item) :
    q.timerQueue[i]? = some item ∧ ∀ x ∈ q.timerQueue, item.execTime ≤ x.execTime := by
  obtain ⟨h1, h2⟩ := Option.filter_eq_some_iff.mp h
  exact ⟨h1, by simpa using h2⟩

theorem Kept.change {P : TimerItem → Prop} {q q' : Queues} (h : Kept q) (hc : Change P q q') :
    Kept q' := by
  obtain ⟨horder, htimers, hruns⟩ := h
  cases hc with
  | same => exact ⟨horder, htimers, hruns⟩
  | push task => exact ⟨by simp [Queues.push, horder], htimers, hruns⟩
  | @pushTimer item hp =>
    refine ⟨horder, ?_, hruns⟩
    simp only [Queues.pushTimer, ← Multiset.coe_add, htimers, add_assoc]
  | pop hq => exact ⟨by simp [Queues.pop, horder, hq], htimers, hruns⟩
  | @popTimer i item now ht hnow =>
    refine ⟨horder, ?_, by simp [Queues.popTimer, hruns]⟩
    obtain ⟨hi, rfl⟩ := List.getElem?_eq_some_iff.mp (top_mem ht).1
    have hperm : (q.timerQueue : Multiset TimerItem) =
        (([q.timerQueue[i]] : List TimerItem) : Multiset TimerItem) +
          (q.timerQueue.eraseIdx i : List TimerItem) :=
      (Multiset.coe_eq_coe.mpr (List.getElem_cons_eraseIdx_perm hi)).symm
    simp only [Queues.popTimer, List.map_append, List.map_cons, List.map_nil, ← Multiset.coe_add,
      htimers, hperm, add_assoc]
  | clear =>
    refine ⟨by simp [Queues.clear, horder, Function.comp_def], ?_, ?_⟩
    · simp [Queues.clear, htimers, Function.comp_def]
    · simp [Queues.clear, List.filter_append, hruns]

/-- What has left a queue was taken or dropped. -/
theorem coe_map_fate {α : Type*} (f : α → Task) : ∀ l : List (α × Fate),
    ((l.map fun p => f p.1 : List Task) : Multiset Task) =
      ((l.filter (·.2 = .taken)).map fun p => f p.1 : List Task) +
        ((l.filter (·.2 = .dropped)).map fun p => f p.1 : List Task) := by
  intro l
  induction l with
  | nil => rfl
  | cons p l ih =>
    obtain ⟨a, fate⟩ := p
    cases fate with
    | taken => simpa [← Multiset.cons_coe] using ih
    | dropped => simpa [← Multiset.cons_coe] using ih

theorem Kept.tasks {q : Queues} (h : Kept q) :
    acceptedTasks q = withFate q .taken + queuedTasks q + withFate q .dropped := by
  have htimers := congrArg (Multiset.map TimerItem.task) h.timers
  simp only [Multiset.map_add, Multiset.map_coe, List.map_map, Function.comp_def] at htimers
  unfold acceptedTasks withFate queuedTasks
  rw [htimers, h.order, ← Multiset.coe_add, coe_map_fate (fun a => a) q.gone,
    coe_map_fate TimerItem.task q.goneTimers]
  abel

/-- The account when no time wraps around. -/
structure Inv (q : Queues) : Prop where
  kept : Kept q
  unwrapped : ∀ x ∈ q.timerQueue, x.due < 2 ^ 64
  inTime : ∀ r ∈ q.timerRuns, TimerRun.InTime r

theorem toNat_execTime {x : TimerItem} (h : x.due < 2 ^ 64) : x.execTime.toNat = x.due := by
  rw [x.execTime_eq, Nat.mod_eq_of_lt h]

/-- The top is due, and the others are not due before it. -/
theorem inTime_popTimer {q : Queues} {i : ℕ} {item : TimerItem} {now : UInt64}
    (hu : ∀ x ∈ q.timerQueue, x.due < 2 ^ 64) (ht : q.top i = some item)
    (hnow : item.execTime / 1000 ≤ now / 1000) :
    TimerRun.InTime ⟨item, now, q.timerQueue.eraseIdx i⟩ := by
  obtain ⟨hi, hmin⟩ := top_mem ht
  have hitem := toNat_execTime (hu item (List.mem_of_getElem? hi))
  constructor
  · have hle := UInt64.le_iff_toNat_le.mp hnow
    simpa [UInt64.toNat_div, hitem] using hle
  · intro x hx
    have hx' := List.mem_of_mem_eraseIdx hx
    have hle := UInt64.le_iff_toNat_le.mp (hmin x hx')
    rwa [hitem, toNat_execTime (hu x hx')] at hle

theorem Inv.change {q q' : Queues} (h : Inv q) (hc : Change (fun item => item.due < 2 ^ 64) q q') :
    Inv q' := by
  refine ⟨h.kept.change hc, ?_, ?_⟩
  · cases hc with
    | same | push | pop => exact h.unwrapped
    | @pushTimer item hp =>
      intro x hx
      rcases List.mem_append.mp hx with hx | hx
      · exact h.unwrapped x hx
      · exact List.mem_singleton.mp hx ▸ hp
    | popTimer ht hnow => exact fun x hx => h.unwrapped x (List.mem_of_mem_eraseIdx hx)
    | clear => exact fun x hx => absurd hx List.not_mem_nil
  · cases hc with
    | same | push | pop | pushTimer | clear => exact h.inTime
    | popTimer ht hnow =>
      intro r hr
      rcases List.mem_append.mp hr with hr | hr
      · exact h.inTime r hr
      · rw [List.mem_singleton.mp hr]
        exact inTime_popTimer h.unwrapped ht hnow

theorem inv_start (k : Kind) : Inv (start k).q :=
  ⟨⟨rfl, rfl, rfl⟩, fun _ hx => absurd hx List.not_mem_nil, fun _ hr => absurd hr List.not_mem_nil⟩

theorem inv_step (k : Kind) {s : State} {l : Label} (h : Inv s.q) (hl : Unwrapped s l) :
    Inv (step k s l).q := by
  refine h.change (step_change ?_)
  rintro i wake item rfl hi hs
  rw [Unwrapped, hi] at hl
  exact hl hs

/-- Whatever the time-outs are, no task is lost or repeated, and the order is kept. -/
theorem run_kept (k : Kind) (ls : List Label) : Kept (run (step k) (start k) ls).q := by
  refine run_inv_of_step (fun s : State => Kept s.q) (fun s l hs => ?_) (inv_start k).kept ls
  exact hs.change (step_change (P := fun _ => True) fun _ _ _ _ _ _ => trivial)

/-- **The task queues lose, repeat and reorder nothing**, and delayed tasks are not early, for a
`BGThread` and for a pool with any number of workers, in every run in which no accepted time-out
wraps around. -/
theorem run_accounted (k : Kind) {ls : List Label}
    (h : Guarded (step k) Unwrapped (start k) ls) : Accounted (run (step k) (start k) ls).q := by
  have hinv := run_inv (fun s => Inv s.q) (fun _ _ hs hl => inv_step k hs hl) (inv_start k) h
  exact ⟨hinv.kept.tasks, hinv.kept.order, hinv.kept.runs, hinv.inTime⟩

/-- A pool with two workers: a task and a delayed one, taken by one worker each. -/
def poolRun : List Label :=
  [.schedule ⟨1, 0⟩, .delaySchedule 5 1000000 ⟨2, 0⟩] ++ List.replicate 5 (.call 0 none) ++
    List.replicate 4 (.call 1 none) ++ List.replicate 8 (.worker 0 1000000 0 none) ++
    List.replicate 5 (.worker 1 1005000 0 none)

theorem accounted_poolRun : Accounted (run (step (.pool 2)) (start (.pool 2)) poolRun).q :=
  run_accounted (.pool 2) (by decide +kernel)

/-- A time-out of `2^64 - 1` milliseconds. -/
def wrappedRun : List Label :=
  .delaySchedule 18446744073709551615 1000000 ⟨1, 0⟩ :: List.replicate 4 (.call 0 none) ++
    List.replicate 5 (.worker 0 1000000 0 none)

/-- The task is taken at once, by a `BGThread` and by a pool. -/
theorem wrapped_taken_early :
    ¬Accounted (run (step (.bg 10)) (start (.bg 10)) wrappedRun).q ∧
      ¬Accounted (run (step (.pool 1)) (start (.pool 1)) wrappedRun).q := by
  constructor
  · intro h
    have hdue : ∃ r ∈ (run (step (.bg 10)) (start (.bg 10)) wrappedRun).q.timerRuns,
        r.now.toNat / 1000 < r.item.due / 1000 := by decide +kernel
    obtain ⟨r, hr, hlt⟩ := hdue
    exact absurd (h.inTime r hr).1 (not_le.mpr hlt)
  · intro h
    have hdue : ∃ r ∈ (run (step (.pool 1)) (start (.pool 1)) wrappedRun).q.timerRuns,
        r.now.toNat / 1000 < r.item.due / 1000 := by decide +kernel
    obtain ⟨r, hr, hlt⟩ := hdue
    exact absurd (h.inTime r hr).1 (not_le.mpr hlt)

end Pink.Tasks.Accounting
