import Pink.Tasks.Lock

/-! # Stopping the task queues

The thread that stops sets `should_stop_` and signals the condition variables without the lock that
the waiting threads test the flag under. A thread that is between its test and its wait misses the
signal, and a `BGThread` wakes one of the waiting producers only. A worker that has found the flag
unset may find it set at its second test, with no task to run; then it goes on, or exits, and does
not give `mu_` back, so that a thread that was woken never gets out of its wait. In all three ways
somebody may be left inside a wait for ever while the thread that stops is joining (`left_asleep`).

Nobody is in every run in which no worker is between its two tests without a task when the flag is
set, no worker is in front of its wait when `rsignal_` is signalled, no producer is in front of its
wait when `wsignal_` is signalled, and at most one producer of a `BGThread` is asleep then
(`not_leftAsleep`). Then no thread goes away with `mu_`, whoever has it gives it back
(`Released.free`), and a thread that was woken takes it. -/

namespace Pink.Tasks.Stopping

open Pink.Lib.Runs Pink.Tasks.Machine Pink.Tasks.Lock

/-! ### What should hold -/

/-- A label that is no signal to come: a wait that is over without a signal, and a new
`QueueClear`. -/
def Unasked : Label → Bool
  | .wakeCall _ | .wakeWorker _ | .queueClear => true
  | _ => false

/-- The worker is inside `rsignal_.Wait`: it was not woken, or has not got `mu_` again. -/
def workerInWait : WorkerPc → Bool
  | .asleep | .relock => true
  | _ => false

/-- The call is inside the `wsignal_.Wait` of `Schedule`. -/
def callInWait : CallPc → Bool
  | .asleep _ | .relock _ => true
  | _ => false

/-- Worker `w` stays inside `rsignal_.Wait`, whatever the threads do. -/
def ForsakenWorker (k : Kind) (s : State) (w : ℕ) : Prop :=
  ∀ ls : List Label, (∀ l ∈ ls, Unasked l = false) →
    (run (step k) s ls).workers[w]?.any workerInWait = true

/-- Call `i` stays inside `wsignal_.Wait`, whatever the threads do. -/
def ForsakenCall (k : Kind) (s : State) (i : ℕ) : Prop :=
  ∀ ls : List Label, (∀ l ∈ ls, Unasked l = false) →
    (run (step k) s ls).calls[i]?.any callInWait = true

/-- The thread that stops is joining, and somebody is left inside a wait. -/
def LeftAsleep (k : Kind) (s : State) : Prop :=
  s.stopper = .joining ∧ ((∃ w, ForsakenWorker k s w) ∨ ∃ i, ForsakenCall k s i)

/-- A call of `Schedule` is in front of its wait, or in it. -/
def callWaits : CallPc → Bool
  | .wait _ | .asleep _ => true
  | _ => false

/-- A worker is in front of `rsignal_.Wait`, or in it. -/
def workerWaits : WorkerPc → Bool
  | .wait | .asleep => true
  | _ => false

def callInFront : CallPc → Bool
  | .wait _ => true
  | _ => false

/-- The flag is not set while a worker is between its tests of it and has no task to run, and the
signals of the thread that stops find the threads they are for. -/
def Reaching (k : Kind) (s : State) : Label → Prop
  | .stop _ =>
    match s.stopper with
    | .idle => ¬(.serve ∈ s.workers ∧ s.q.queue = [] ∧ s.q.timerQueue ≠ [])
    | .signalR => .wait ∉ s.workers
    | .signalW => s.calls.any callInFront = false ∧
      match k with
      | .bg _ => s.calls.countP CallPc.isAsleep ≤ 1
      | .pool _ => True
    | _ => True
  | _ => True

instance (k : Kind) (s : State) (l : Label) : Decidable (Reaching k s l) :=
  match s, l, k with
  | { stopper := .signalR, .. }, .stop _, _ => inferInstanceAs (Decidable (_ ∉ _))
  | { stopper := .signalW, .. }, .stop _, .bg _ => inferInstanceAs (Decidable (_ = _ ∧ _ ≤ _))
  | { stopper := .signalW, .. }, .stop _, .pool _ => inferInstanceAs (Decidable (_ = _ ∧ True))
  | { stopper := .idle, .. }, .stop _, _ => inferInstanceAs (Decidable (¬_))
  | { stopper := .joining, .. }, .stop _, _ => .isTrue trivial
  | { stopper := .joined, .. }, .stop _, _ => .isTrue trivial
  | _, .schedule _, _ => .isTrue trivial
  | _, .delaySchedule .., _ => .isTrue trivial
  | _, .queueClear, _ => .isTrue trivial
  | _, .call .., _ => .isTrue trivial
  | _, .worker .., _ => .isTrue trivial
  | _, .timeout _, _ => .isTrue trivial
  | _, .wakeCall _, _ => .isTrue trivial
  | _, .wakeWorker _, _ => .isTrue trivial

/-! ### What a step does to the other threads -/

/-- The call will signal `rsignal_`. -/
def armsR : CallPc → Bool
  | .signal => true
  | _ => false

/-- The call will signal `wsignal_`. -/
def callArmsW : CallPc → Bool
  | .clearLock | .clear | .clearSignal => true
  | _ => false

/-- The worker may signal `wsignal_` before it tests `should_stop()` again. -/
def workerArmsW : WorkerPc → Bool
  | .serve | .serveQueue | .signal _ => true
  | _ => false

/-- The worker has the lock, and looks for a task. -/
def serving : WorkerPc → Bool
  | .check | .serve | .serveQueue => true
  | _ => false

/-- What a worker knows of the queues while it looks for a task. -/
def Stocked (s : State) : WorkerPc → Prop
  | .check => s.shouldStop = true ∨ s.q.queue ≠ [] ∨ s.q.timerQueue ≠ []
  | .serve => s.q.queue ≠ [] ∨ s.q.timerQueue ≠ [] ∧ s.shouldStop = false
  | .serveQueue => s.q.queue ≠ []
  | _ => True

theorem stocked_of_not_serving {s : State} {pc : WorkerPc} (h : serving pc = false) :
    Stocked s pc := by
  cases pc <;> trivial

/-- What a step does besides moving its own thread: it may wake a call if `wakesCall`, and a worker
if `wakesWorker`. -/
inductive Touch (s : State) (wakesCall wakesWorker : Prop) : State → Prop
  | keep (q : Queues) (holder : Option Owner) : Touch s wakesCall wakesWorker { s with q, holder }
  | wakeCall (h : wakesCall) {j : ℕ} {pc : CallPc} (hj : s.calls[j]? = some pc)
      (ha : pc.isAsleep = true) : Touch s wakesCall wakesWorker (s.setCall j pc.woken)
  | wakeWorker (h : wakesWorker) {j : ℕ} {pc : WorkerPc} (hj : s.workers[j]? = some pc)
      (ha : pc.isAsleep = true) : Touch s wakesCall wakesWorker (s.setWorker j pc.woken)

section Touches
variable {k : Kind} {s s' : State} {A B : Prop}

theorem touch_lock {o : Owner} (h : s.lock o = some s') : Touch s A B s' := by
  obtain ⟨-, rfl⟩ := lock_eq h
  exact .keep s.q (some o)

theorem touch_signalW {wake : Option ℕ} (hA : A) (h : s.signalW wake = some s') :
    Touch s A B s' := by
  rcases signalW_cases h with ⟨rfl, -⟩ | ⟨j, pc, hj, ha, rfl⟩
  · exact .keep s'.q s'.holder
  · exact .wakeCall hA hj ha

theorem touch_signalR {wake : Option ℕ} (hB : B) (h : s.signalR wake = some s') :
    Touch s A B s' := by
  rcases signalR_cases h with ⟨rfl, -⟩ | ⟨j, pc, hj, ha, rfl⟩
  · exact .keep s'.q s'.holder
  · exact .wakeWorker hB hj ha

/-- A step of a call: where it goes, and what it does to the others. -/
inductive CallMove (s : State) (i : ℕ) (pc : CallPc) : State → Prop
  | mk {s₁ : State} {pc' : CallPc} (ht : Touch s (callArmsW pc = true) (armsR pc = true) s₁)
      (hwait : callWaits pc' = true → callWaits pc = true ∨ s.shouldStop = false)
      (hR : armsR pc' = true → s.shouldStop = false)
      (hW : callArmsW pc' = true → callArmsW pc = true) : CallMove s i pc (s₁.setCall i pc')

/-- A step of a worker. -/
inductive WorkerMove (s : State) (w : ℕ) (pc : WorkerPc) : State → Prop
  | mk {s₁ : State} {pc' : WorkerPc} (ht : Touch s (workerArmsW pc = true) False s₁)
      (hwait : workerWaits pc' = true → workerWaits pc = true ∨ s.shouldStop = false)
      (hW : workerArmsW pc' = true → workerArmsW pc = true ∨ s.shouldStop = false)
      (hstock : Stocked s pc → Stocked s₁ pc') :
      WorkerMove s w pc (s₁.setWorker w pc')

theorem callMove_map {i : ℕ} {pc pc' : CallPc} {x : Option State}
    (h : x.map (·.setCall i pc') = some s')
    (ht : ∀ s₁, x = some s₁ → Touch s (callArmsW pc = true) (armsR pc = true) s₁)
    (hwait : callWaits pc' = false) (hR : armsR pc' = false)
    (hW : callArmsW pc' = true → callArmsW pc = true) : CallMove s i pc s' := by
  obtain ⟨s₁, h1, rfl⟩ := Option.map_eq_some_iff.mp h
  exact .mk (ht s₁ h1) (by simp [hwait]) (by simp [hR]) hW

theorem workerMove_map {w : ℕ} {pc pc' : WorkerPc} {x : Option State}
    (h : x.map (·.setWorker w pc') = some s')
    (ht : ∀ s₁, x = some s₁ → Touch s (workerArmsW pc = true) False s₁)
    (hwait : workerWaits pc' = false) (hW : workerArmsW pc' = false)
    (hserving : serving pc' = false) : WorkerMove s w pc s' := by
  obtain ⟨s₁, h1, rfl⟩ := Option.map_eq_some_iff.mp h
  exact .mk (ht s₁ h1) (by simp [hwait]) (by simp [hW]) fun _ => stocked_of_not_serving hserving

theorem callMove_of_step {i : ℕ} {wake : Option ℕ} {pc : CallPc}
    (h : callStep k s i wake pc = some s') : CallMove s i pc s' := by
  cases pc with
  | lock task => exact callMove_map h (fun _ => touch_lock) rfl rfl (by simp [callArmsW])
  | test task =>
    obtain rfl := Option.some.inj h
    refine .mk (.keep s.q s.holder) ?_ ?_ ?_
    · split_ifs with hc
      · exact fun _ => .inr (by simpa using hc.2)
      · simp [callWaits]
    · split_ifs <;> simp [armsR]
    · split_ifs <;> simp [callArmsW]
  | wait task =>
    obtain rfl := Option.some.inj h
    exact .mk (.keep s.q none) (by simp [callWaits]) (by simp [armsR]) (by simp [callArmsW])
  | asleep task => simp [callStep] at h
  | relock task => exact callMove_map h (fun _ => touch_lock) rfl rfl (by simp [callArmsW])
  | push task =>
    obtain rfl := Option.some.inj h
    split_ifs with hs
    · exact .mk (.keep s.q s.holder) (by simp [callWaits]) (by simp [armsR]) (by simp [callArmsW])
    · exact .mk (.keep (s.q.push task) s.holder) (by simp [callWaits])
        (fun _ => by simpa using hs) (by simp [callArmsW])
  | delayLock item => exact callMove_map h (fun _ => touch_lock) rfl rfl (by simp [callArmsW])
  | delayPush item =>
    obtain rfl := Option.some.inj h
    split_ifs with hs
    · exact .mk (.keep s.q s.holder) (by simp [callWaits]) (by simp [armsR]) (by simp [callArmsW])
    · exact .mk (.keep (s.q.pushTimer item) s.holder) (by simp [callWaits])
        (fun _ => by simpa using hs) (by simp [callArmsW])
  | signal => exact callMove_map h (fun _ => touch_signalR rfl) rfl rfl (by simp [callArmsW])
  | clearLock => exact callMove_map h (fun _ => touch_lock) rfl rfl fun _ => rfl
  | clear =>
    obtain rfl := Option.some.inj h
    exact .mk (.keep s.q.clear s.holder) (by simp [callWaits]) (by simp [armsR]) fun _ => rfl
  | clearSignal =>
    exact callMove_map h (fun _ => touch_signalW rfl) rfl rfl (by simp [callArmsW])
  | unlock =>
    obtain rfl := Option.some.inj h
    exact .mk (.keep s.q none) (by simp [callWaits]) (by simp [armsR]) (by simp [callArmsW])
  | done => simp [callStep] at h

theorem workerMove_of_step {w : ℕ} {now : UInt64} {i : ℕ} {wake : Option ℕ} {pc : WorkerPc}
    (h : workerStep k s w now i wake pc = some s') : WorkerMove s w pc s' := by
  -- a step that leaves the others alone, to a place where the worker neither waits nor signals
  have hkeep : ∀ q holder pc', some (State.setWorker { s with q, holder } w pc') = some s' →
      workerWaits pc' = false → workerArmsW pc' = false → serving pc' = false →
      WorkerMove s w pc s' := by
    rintro q holder pc' h hwait hW hserving
    obtain rfl := Option.some.inj h
    exact .mk (.keep q holder) (by simp [hwait]) (by simp [hW])
      fun _ => stocked_of_not_serving hserving
  cases pc with
  | lock | relock | timedRelock | swallowLock | timersLock =>
    exact workerMove_map h (fun _ => touch_lock) rfl rfl rfl
  | asleep | timedAsleep | exited => simp [workerStep] at h
  | top =>
    refine hkeep s.q s.holder _ h ?_ ?_ ?_ <;> split_ifs <;> cases k <;> rfl
  | test =>
    obtain rfl := Option.some.inj h
    refine .mk (.keep s.q s.holder) ?_ ?_ fun _ => ?_
    · split_ifs with hc
      · exact fun _ => .inr (by simpa using hc.2.2)
      · simp [workerWaits]
    · split_ifs <;> simp [workerArmsW]
    · split_ifs with hc
      · trivial
      · by_cases hqueue : s.q.queue = []
        · by_cases htimers : s.q.timerQueue = []
          · exact .inl (by simpa [hqueue, htimers] using hc)
          · exact .inr (.inr htimers)
        · exact .inr (.inl hqueue)
  | wait =>
    obtain rfl := Option.some.inj h
    exact .mk (.keep s.q none) (fun _ => .inl rfl) (by simp [workerArmsW]) fun _ => trivial
  | check =>
    obtain rfl := Option.some.inj h
    refine .mk (.keep s.q s.holder) ?_ ?_ fun hstock => ?_
    · split_ifs <;> simp [workerWaits]
    · split_ifs with hs
      · simp [workerArmsW]
      · exact fun _ => .inr (by simpa using hs)
    · split_ifs with hs
      · trivial
      · exact (hstock.resolve_left hs).imp_right fun htimers => ⟨htimers, by simpa using hs⟩
  | leave => refine hkeep s.q none _ h ?_ ?_ ?_ <;> cases k <;> rfl
  | serve =>
    dsimp only [workerStep] at h
    by_cases h0 : s.q.timerQueue = []
    · rw [if_pos h0] at h
      obtain rfl := Option.some.inj h
      exact .mk (.keep s.q s.holder) (by simp [workerWaits]) (fun _ => .inl rfl)
        fun hstock => hstock.resolve_right fun htimers => htimers.1 h0
    · rw [if_neg h0] at h
      obtain ⟨item, -, rfl⟩ := Option.map_eq_some_iff.mp h
      split_ifs with hdue hidle
      · exact .mk (.keep (s.q.popTimer i item now) s.holder) (by simp [workerWaits])
          (by simp [workerArmsW]) fun _ => trivial
      · exact .mk (.keep s.q s.holder) (by simp [workerWaits]) (by simp [workerArmsW])
          fun _ => trivial
      · refine .mk (.keep s.q s.holder) (by simp [workerWaits]) (fun _ => .inl rfl) fun hstock => ?_
        rcases hstock with hqueue | ⟨-, hflag⟩
        · exact hqueue
        · exact fun hqueue => hidle ⟨hqueue, by simp [hflag]⟩
  | serveQueue =>
    dsimp only [workerStep] at h
    split at h
    · exact hkeep s.q s.holder _ h rfl rfl rfl
    case _ task rest _ =>
      obtain rfl := Option.some.inj h
      exact .mk (.keep (s.q.pop task rest) s.holder) (by simp [workerWaits]) (fun _ => .inl rfl)
        fun _ => trivial
  | signal task => exact workerMove_map h (fun _ => touch_signalW rfl) rfl rfl rfl
  | swallow =>
    dsimp only [workerStep] at h
    split at h
    · exact hkeep s.q none _ h rfl rfl rfl
    case _ task rest _ => exact hkeep (s.q.pop task rest) s.holder _ h rfl rfl rfl
  | timers unow =>
    dsimp only [workerStep] at h
    by_cases h0 : s.q.timerQueue = []
    · rw [if_pos h0] at h
      exact hkeep s.q none _ h rfl rfl rfl
    · rw [if_neg h0] at h
      obtain ⟨item, -, he⟩ := Option.map_eq_some_iff.mp h
      split_ifs at he
      · exact hkeep s.q none _ (congrArg some he) rfl rfl rfl
      · exact hkeep (s.q.popTimer i item unow) s.holder _ (congrArg some he) rfl rfl rfl
  | timedWait | timedUnlock | unlockRun | swallowUnlock | timersUnlock =>
    exact hkeep s.q none _ h rfl rfl rfl
  | run | swallowRun | swallowNow | timersRun => exact hkeep s.q s.holder _ h rfl rfl rfl

end Touches

/-! ### Nobody waits after the signals -/

/-- The threads after the steps of the thread that stops: the flag is set, then no worker waits, and
then no call of `Schedule` does. -/
structure Inv (k : Kind) (s : State) : Prop where
  one : ∀ full, k = .bg full → s.workers.length = 1
  flag : s.stopper ≠ .idle → s.shouldStop = true
  workers : s.stopper ≠ .idle → s.stopper ≠ .signalR → ∀ pc ∈ s.workers, workerWaits pc = false
  calls : s.stopper = .joining ∨ s.stopper = .joined → ∀ pc ∈ s.calls, callWaits pc = false

section Keep
variable {k : Kind} {s s₁ : State} {A B : Prop}

theorem woken_callWaits {pc : CallPc} (h : pc.isAsleep = true) : callWaits pc.woken = false := by
  cases pc <;> simp_all [CallPc.isAsleep, CallPc.woken, callWaits]

theorem woken_workerWaits {pc : WorkerPc} (h : pc.isAsleep = true) :
    workerWaits pc.woken = false := by
  cases pc <;> simp_all [WorkerPc.isAsleep, WorkerPc.woken, workerWaits]

theorem Inv.setCall (h : Inv k s) {i : ℕ} {pc : CallPc}
    (hpc : s.stopper = .joining ∨ s.stopper = .joined → callWaits pc = false) :
    Inv k (s.setCall i pc) := by
  refine ⟨h.one, h.flag, h.workers, fun hst pc' hpc' => ?_⟩
  rcases List.mem_or_eq_of_mem_set hpc' with hpc' | rfl
  · exact h.calls hst pc' hpc'
  · exact hpc hst

theorem Inv.setWorker (h : Inv k s) {w : ℕ} {pc : WorkerPc}
    (hpc : s.stopper ≠ .idle → s.stopper ≠ .signalR → workerWaits pc = false) :
    Inv k (s.setWorker w pc) := by
  refine ⟨fun full hk => ?_, h.flag, fun h1 h2 pc' hpc' => ?_, h.calls⟩
  · rw [← h.one full hk]
    exact List.length_set
  · rcases List.mem_or_eq_of_mem_set hpc' with hpc' | rfl
    · exact h.workers h1 h2 pc' hpc'
    · exact hpc h1 h2

/-- Waking somebody keeps the invariant. -/
theorem Inv.touch (h : Inv k s) (ht : Touch s A B s₁) :
    Inv k s₁ ∧ s₁.stopper = s.stopper ∧ s₁.shouldStop = s.shouldStop := by
  cases ht with
  | keep q holder => exact ⟨⟨h.one, h.flag, h.workers, h.calls⟩, rfl, rfl⟩
  | wakeCall _ hj ha => exact ⟨h.setCall fun _ => woken_callWaits ha, rfl, rfl⟩
  | wakeWorker _ hj ha => exact ⟨h.setWorker fun _ _ => woken_workerWaits ha, rfl, rfl⟩

theorem Inv.callMove {s' : State} {i : ℕ} {pc : CallPc} (h : Inv k s) (hi : s.calls[i]? = some pc)
    (hm : CallMove s i pc s') : Inv k s' := by
  cases hm with
  | @mk s₁ pc' ht hwait _ _ =>
    obtain ⟨h1, hst, -⟩ := h.touch ht
    refine h1.setCall fun hj => ?_
    rw [hst] at hj
    have hflag : s.shouldStop = true := h.flag (by rcases hj with hj | hj <;> simp [hj])
    have hpc : callWaits pc = false := h.calls hj pc (List.mem_of_getElem? hi)
    by_contra hc
    rcases hwait (by simpa using hc) with hw | hw
    · simp [hpc] at hw
    · simp [hflag] at hw

theorem Inv.workerMove {s' : State} {w : ℕ} {pc : WorkerPc} (h : Inv k s)
    (hw : s.workers[w]? = some pc) (hm : WorkerMove s w pc s') : Inv k s' := by
  cases hm with
  | @mk s₁ pc' ht hwait _ =>
    obtain ⟨h1, hst, -⟩ := h.touch ht
    refine h1.setWorker fun hj hj' => ?_
    rw [hst] at hj hj'
    have hflag : s.shouldStop = true := h.flag hj
    have hpc : workerWaits pc = false := h.workers hj hj' pc (List.mem_of_getElem? hw)
    by_contra hc
    rcases hwait (by simpa using hc) with hw | hw
    · simp [hpc] at hw
    · simp [hflag] at hw

/-! ### The signals of the thread that stops -/

theorem workerWaits_eq {pc : WorkerPc} :
    workerWaits pc = true ↔ pc = .wait ∨ pc = .asleep := by
  cases pc <;> simp [workerWaits]

theorem callWaits_eq (pc : CallPc) : callWaits pc = (callInFront pc || pc.isAsleep) := by
  cases pc <;> rfl

/-- The one worker of a `BGThread` is woken. -/
theorem signalR_one {wake : Option ℕ} (hone : s.workers.length = 1) (hw : .wait ∉ s.workers)
    (h : s.signalR wake = some s₁) : ∀ pc ∈ s₁.workers, workerWaits pc = false := by
  rcases signalR_cases h with ⟨rfl, hany⟩ | ⟨w, pc, hj, ha, rfl⟩
  · intro pc hpc
    by_contra hc
    rcases workerWaits_eq.mp (by simpa using hc) with rfl | rfl
    · exact hw hpc
    · exact List.any_eq_false.mp hany _ hpc rfl
  · obtain ⟨x, hx⟩ := List.length_eq_one_iff.mp hone
    have hw0 : w = 0 := by
      have := (List.getElem?_eq_some_iff.mp hj).1
      omega
    subst hw0
    intro pc' hpc'
    rw [State.setWorker, hx, List.set_cons_zero, List.mem_singleton] at hpc'
    exact hpc' ▸ woken_workerWaits ha

theorem signalAllR_all (hw : .wait ∉ s.workers) :
    ∀ pc ∈ s.signalAllR.workers, workerWaits pc = false := by
  intro pc' hpc'
  obtain ⟨pc, hpc, rfl⟩ := List.mem_map.mp hpc'
  by_contra hc
  cases pc with
  | wait => exact hw hpc
  | _ => simp [WorkerPc.woken, workerWaits] at hc

theorem signalAllW_all (hf : s.calls.any callInFront = false) :
    ∀ pc ∈ s.signalAllW.calls, callWaits pc = false := by
  intro pc' hpc'
  obtain ⟨pc, hpc, rfl⟩ := List.mem_map.mp hpc'
  by_contra hc
  cases pc with
  | wait task => simpa [callInFront] using List.any_eq_false.mp hf _ hpc
  | _ => simp [CallPc.woken, callWaits] at hc

/-- The last call that is asleep is woken. -/
theorem signalW_one {wake : Option ℕ} (hf : s.calls.any callInFront = false)
    (hone : s.calls.countP CallPc.isAsleep ≤ 1) (h : s.signalW wake = some s₁) :
    ∀ pc ∈ s₁.calls, callWaits pc = false := by
  have hfront : ∀ pc ∈ s.calls, callInFront pc = false := by
    intro pc hpc
    simpa using List.any_eq_false.mp hf pc hpc
  rcases signalW_cases h with ⟨rfl, hany⟩ | ⟨i, pc, hj, ha, rfl⟩
  · intro pc hpc
    rw [callWaits_eq, hfront pc hpc]
    simpa using List.any_eq_false.mp hany pc hpc
  · obtain ⟨hi, rfl⟩ := List.getElem?_eq_some_iff.mp hj
    have hwoken := woken_callWaits ha
    have hawake : s.calls[i].woken.isAsleep = false := by
      rw [callWaits_eq] at hwoken
      exact (Bool.or_eq_false_iff.mp hwoken).2
    have hcount : (s.calls.set i s.calls[i].woken).countP CallPc.isAsleep = 0 := by
      rw [List.countP_set hi, if_pos ha, hawake]
      simp only [Bool.false_eq_true, if_false]
      omega
    intro pc' hpc'
    rcases List.mem_or_eq_of_mem_set hpc' with hm | rfl
    · rw [callWaits_eq, hfront pc' hm, Bool.false_or]
      simpa using List.countP_eq_zero.mp hcount pc' hpc'
    · exact hwoken

theorem signalR_rest {wake : Option ℕ} (h : s.signalR wake = some s₁) :
    s₁.calls = s.calls ∧ s₁.shouldStop = s.shouldStop ∧ s₁.workers.length = s.workers.length := by
  rcases signalR_cases h with ⟨rfl, -⟩ | ⟨w, pc, -, -, rfl⟩
  · exact ⟨rfl, rfl, rfl⟩
  · exact ⟨rfl, rfl, List.length_set⟩

theorem signalW_rest {wake : Option ℕ} (h : s.signalW wake = some s₁) :
    s₁.workers = s.workers ∧ s₁.shouldStop = s.shouldStop := by
  rcases signalW_cases h with ⟨rfl, -⟩ | ⟨i, pc, -, -, rfl⟩
  · exact ⟨rfl, rfl⟩
  · exact ⟨rfl, rfl⟩

theorem Inv.stopStep {s' : State} {wake : Option ℕ} (h : Inv k s) (hr : Reaching k s (.stop wake))
    (hs : stopStep k s wake = some s') : Inv k s' := by
  unfold Machine.stopStep at hs
  unfold Reaching at hr
  split at hs
  case _ hst =>
    obtain rfl := Option.some.inj hs
    exact ⟨h.one, fun _ => rfl, fun _ h2 => absurd rfl h2, by simp⟩
  case _ hst =>
    rw [hst] at hr
    have hflag := h.flag (by simp [hst])
    cases k with
    | bg full =>
      obtain ⟨s₁, h1, rfl⟩ := Option.map_eq_some_iff.mp hs
      have hsig : s.signalR wake = some s₁ := h1
      obtain ⟨-, hstop, hlen⟩ := signalR_rest hsig
      have hall := signalR_one (h.one full rfl) hr hsig
      exact ⟨fun full' hk => hlen.trans (h.one full' hk), fun _ => hstop.trans hflag,
        fun _ _ => hall, by simp⟩
    | pool workerNum =>
      obtain rfl := Option.some.inj hs
      exact ⟨by simp, fun _ => hflag, fun _ _ => signalAllR_all hr, by simp⟩
  case _ hst =>
    rw [hst] at hr
    have hflag := h.flag (by simp [hst])
    have hworkers := h.workers (by simp [hst]) (by simp [hst])
    cases k with
    | bg full =>
      obtain ⟨s₁, h1, rfl⟩ := Option.map_eq_some_iff.mp hs
      have hsig : s.signalW wake = some s₁ := h1
      obtain ⟨hw, hstop⟩ := signalW_rest hsig
      have hall := signalW_one hr.1 hr.2 hsig
      refine ⟨fun full' hk => ?_, fun _ => hstop.trans hflag, fun _ _ => ?_, fun _ => hall⟩
      · exact (congrArg List.length hw).trans (h.one full' hk)
      · exact hw.symm ▸ hworkers
    | pool workerNum =>
      obtain rfl := Option.some.inj hs
      exact ⟨by simp, fun _ => hflag, fun _ _ => hworkers, fun _ => signalAllW_all hr.1⟩
  case _ hst =>
    split_ifs at hs
    obtain rfl := Option.some.inj hs
    exact ⟨h.one, fun _ => h.flag (by simp [hst]),
      fun _ _ => h.workers (by simp [hst]) (by simp [hst]), fun _ => h.calls (.inl hst)⟩
  case _ hst => simp at hs

theorem Inv.addCall {pc : CallPc} (h : Inv k s) (hpc : callWaits pc = false) :
    Inv k { s with calls := s.calls ++ [pc] } := by
  refine ⟨h.one, h.flag, h.workers, fun hst pc' hpc' => ?_⟩
  rcases List.mem_append.mp hpc' with hm | hm
  · exact h.calls hst pc' hm
  · exact List.mem_singleton.mp hm ▸ hpc

end Keep

theorem inv_step (k : Kind) {s : State} {l : Label} (h : Inv k s) (hl : Reaching k s l) :
    Inv k (step k s l) := by
  unfold step
  cases hs : stepOption k s l with
  | none => exact h
  | some s' =>
    show Inv k s'
    cases l with
    | schedule task => exact Option.some.inj hs ▸ h.addCall rfl
    | delaySchedule timeout now task => exact Option.some.inj hs ▸ h.addCall rfl
    | queueClear =>
      cases k with
      | bg full => exact Option.some.inj hs ▸ h.addCall rfl
      | pool workerNum => simp [stepOption] at hs
    | call i wake =>
      obtain ⟨pc, hpc, hs⟩ := Option.bind_eq_some_iff.mp hs
      exact h.callMove hpc (callMove_of_step hs)
    | worker w now i wake =>
      obtain ⟨pc, hpc, hs⟩ := Option.bind_eq_some_iff.mp hs
      exact h.workerMove hpc (workerMove_of_step hs)
    | stop wake => exact h.stopStep hl hs
    | timeout w =>
      dsimp only [stepOption] at hs
      split_ifs at hs
      exact Option.some.inj hs ▸ h.setWorker fun _ _ => rfl
    | wakeCall i =>
      have hsig : s.signalW (some i) = some s' := hs
      have ht : Touch s True False s' := touch_signalW trivial hsig
      exact (h.touch ht).1
    | wakeWorker w =>
      have hsig : s.signalR (some w) = some s' := hs
      have ht : Touch s False True s' := touch_signalR trivial hsig
      exact (h.touch ht).1

theorem inv_start (k : Kind) : Inv k (start k) := by
  refine ⟨?_, by simp [start], by simp [start], by simp [start]⟩
  rintro full rfl
  rfl

/-! ### Whoever has the lock gives it back -/

/-- No thread goes away with `mu_`: a worker that looks for a task finds one. -/
structure Released (s : State) : Prop where
  held : Held s
  stocked : ∀ (w : ℕ) (pc : WorkerPc), s.workers[w]? = some pc → Stocked s pc

section Release
variable {k : Kind} {s s₁ s' : State} {A B : Prop}

theorem Stocked.congr {pc : WorkerPc} (h : Stocked s pc) (hq : s'.q = s.q)
    (hflag : s'.shouldStop = s.shouldStop) : Stocked s' pc := by
  unfold Stocked at h ⊢
  rwa [hq, hflag]

theorem serving_woken {pc : WorkerPc} (h : pc.isAsleep = true) : serving pc.woken = false := by
  cases pc <;> simp_all [WorkerPc.isAsleep, WorkerPc.woken, serving]

theorem holds_of_serving {pc : WorkerPc} (h : serving pc = true) : workerHolds pc = true := by
  cases pc <;> first | rfl | cases h

/-- A step moves only its own worker to a place where it looks for a task. -/
theorem Touch.workers (ht : Touch s A B s₁) {v : ℕ} {pc : WorkerPc}
    (hv : s₁.workers[v]? = some pc) : s.workers[v]? = some pc ∨ serving pc = false := by
  cases ht with
  | keep q holder => exact .inl hv
  | wakeCall _ _ _ => exact .inl hv
  | @wakeWorker _ j pc₀ hj ha =>
    by_cases hjv : j = v
    · subst hjv
      obtain ⟨hlt, -⟩ := List.getElem?_eq_some_iff.mp hj
      simp only [State.setWorker, List.getElem?_set_self hlt, Option.some.injEq] at hv
      exact .inr (hv ▸ serving_woken ha)
    · simp only [State.setWorker, List.getElem?_set_ne hjv] at hv
      exact .inl hv

theorem Touch.flag (ht : Touch s A B s₁) :
    s₁.shouldStop = s.shouldStop ∧ s₁.stopper = s.stopper := by
  cases ht <;> exact ⟨rfl, rfl⟩

/-- What a worker that is not the one that moves knows of the queues. -/
theorem Released.others (h : Released s) {o : Owner} (ht : Turn s s' o)
    (hflag : s'.shouldStop = s.shouldStop) {v : ℕ} (hv : .worker v ≠ o) {pc : WorkerPc}
    (hpc : s.workers[v]? = some pc ∨ serving pc = false) : Stocked s' pc := by
  cases hserving : serving pc with
  | false => exact stocked_of_not_serving hserving
  | true =>
    have hpc : s.workers[v]? = some pc := hpc.resolve_right (by simp [hserving])
    have hin : inside s (.worker v) = true := by simp [inside, hpc, holds_of_serving hserving]
    have hq : s'.q = s.q := ht.queues.resolve_right fun ho => hv (h.held.locked.eq hin ho)
    exact (h.stocked v pc hpc).congr hq hflag

theorem Released.not_leaks (h : Released s) (o : Owner) : ¬Leaks s o := by
  rcases o with i | w
  · exact fun hl => hl
  · rintro ⟨hpc, hqueue⟩
    exact h.stocked w _ hpc hqueue

theorem Released.call (h : Released s) {i : ℕ} {wake : Option ℕ} {pc : CallPc}
    (hpc : s.calls[i]? = some pc) (hs : callStep k s i wake pc = some s') : Released s' := by
  have ht := callStep_turn hpc hs
  have hmove := callMove_of_step hs
  refine ⟨h.held.turn ht (h.not_leaks _), fun v pcv hv => ?_⟩
  cases hmove with
  | @mk s₁ pc' htouch _ _ _ =>
    exact h.others ht htouch.flag.1 (by simp) (htouch.workers hv)

theorem Released.worker (h : Released s) {w : ℕ} {now : UInt64} {i : ℕ} {wake : Option ℕ}
    {pc : WorkerPc} (hpc : s.workers[w]? = some pc)
    (hs : workerStep k s w now i wake pc = some s') : Released s' := by
  have ht := workerStep_turn hpc hs
  have hmove := workerMove_of_step hs
  refine ⟨h.held.turn ht (h.not_leaks _), fun v pcv hv => ?_⟩
  cases hmove with
  | @mk s₁ pc' htouch _ _ hstock =>
    by_cases hvw : w = v
    · subst hvw
      obtain rfl : pc' = pcv := by
        change (s₁.workers.set w pc')[w]? = some pcv at hv
        have hlt : w < s₁.workers.length := by
          simpa using (List.getElem?_eq_some_iff.mp hv).1
        rw [List.getElem?_set_self hlt] at hv
        exact Option.some.inj hv
      exact (hstock (h.stocked w pc hpc)).congr rfl rfl
    · simp only [State.setWorker, List.getElem?_set_ne hvw] at hv
      exact h.others ht htouch.flag.1 (by simpa using Ne.symm hvw) (htouch.workers hv)

/-- The workers are where they were, or were woken. -/
theorem Released.of_still (h : Released s) (hs : Still s s') (hq : s'.q = s.q)
    (hflag : s'.shouldStop = s.shouldStop)
    (hw : ∀ (v : ℕ) (pc : WorkerPc), s'.workers[v]? = some pc →
      s.workers[v]? = some pc ∨ serving pc = false) : Released s' := by
  refine ⟨h.held.still hs, fun v pc hv => ?_⟩
  rcases hw v pc hv with hold | hserving
  · exact (h.stocked v pc hold).congr hq hflag
  · exact stocked_of_not_serving hserving

theorem Released.stop (h : Released s) {wake : Option ℕ} (hr : Reaching k s (.stop wake))
    (hs : stopStep k s wake = some s') : Released s' := by
  refine ⟨h.held.still (stopStep_still hs), ?_⟩
  have hsame : ∀ {s₁ : State} (p : StopperPc), s₁.q = s.q → s₁.shouldStop = s.shouldStop →
      (∀ (v : ℕ) (pc : WorkerPc), s₁.workers[v]? = some pc →
        s.workers[v]? = some pc ∨ serving pc = false) →
      ∀ (v : ℕ) (pc : WorkerPc), s₁.workers[v]? = some pc →
        Stocked { s₁ with stopper := p } pc := by
    intro s₁ p hq hflag hw v pc hv
    rcases hw v pc hv with hold | hserving
    · exact (h.stocked v pc hold).congr hq hflag
    · exact stocked_of_not_serving hserving
  unfold stopStep at hs
  unfold Reaching at hr
  split at hs
  case _ hst =>
    rw [hst] at hr
    obtain rfl := Option.some.inj hs
    intro v pc hv
    have hold := h.stocked v pc hv
    cases pc with
    | check => exact .inl rfl
    | serve =>
      by_cases hqueue : s.q.queue = []
      · have htimers := hold.resolve_left (not_not.mpr hqueue)
        exact absurd ⟨List.mem_of_getElem? hv, hqueue, htimers.1⟩ hr
      · exact .inl hqueue
    | serveQueue => exact hold
    | _ => trivial
  case _ hst =>
    obtain ⟨s₁, h1, rfl⟩ := Option.map_eq_some_iff.mp hs
    cases k with
    | bg full =>
      have hsig : s.signalR wake = some s₁ := h1
      have ht : Touch s False True s₁ := touch_signalR trivial hsig
      exact hsame .signalW (still_signalR hsig).2.1 ht.flag.1 fun v pc => ht.workers
    | pool workerNum =>
      obtain rfl := Option.some.inj h1
      refine hsame .signalW rfl rfl fun v pc hv => ?_
      simp only [State.signalAllR, List.getElem?_map, Option.map_eq_some_iff] at hv
      obtain ⟨pc₀, hold, rfl⟩ := hv
      cases ha : pc₀.isAsleep with
      | true => exact .inr (serving_woken ha)
      | false => exact .inl (by rw [hold]; cases pc₀ <;> first | rfl | cases ha)
  case _ hst =>
    obtain ⟨s₁, h1, rfl⟩ := Option.map_eq_some_iff.mp hs
    cases k with
    | bg full =>
      have hsig : s.signalW wake = some s₁ := h1
      have ht : Touch s True False s₁ := touch_signalW trivial hsig
      exact hsame .joining (still_signalW hsig).2.1 ht.flag.1 fun v pc => ht.workers
    | pool workerNum =>
      obtain rfl := Option.some.inj h1
      exact hsame .joining rfl rfl fun v pc hv => .inl hv
  case _ hst =>
    split_ifs at hs
    obtain rfl := Option.some.inj hs
    exact hsame .joined rfl rfl fun v pc hv => .inl hv
  case _ hst => simp at hs

/-- **Every step that `Reaching` allows.** -/
theorem Released.step {l : Label} (h : Released s) (hl : Reaching k s l) :
    Released (Machine.step k s l) := by
  unfold Machine.step
  rcases hs : stepOption k s l with _ | s'
  · exact h
  rw [Option.getD_some]
  cases l with
  | schedule task =>
    obtain rfl := Option.some.inj hs
    exact h.of_still (still_addCall s rfl) rfl rfl fun v pc hv => .inl hv
  | delaySchedule timeout now task =>
    obtain rfl := Option.some.inj hs
    exact h.of_still (still_addCall s rfl) rfl rfl fun v pc hv => .inl hv
  | queueClear =>
    cases k with
    | bg full =>
      obtain rfl := Option.some.inj hs
      exact h.of_still (still_addCall s rfl) rfl rfl fun v pc hv => .inl hv
    | pool workerNum => simp [stepOption] at hs
  | call i wake =>
    obtain ⟨pc, hpc, hs⟩ := Option.bind_eq_some_iff.mp hs
    exact h.call hpc hs
  | worker w now i wake =>
    obtain ⟨pc, hpc, hs⟩ := Option.bind_eq_some_iff.mp hs
    exact h.worker hpc hs
  | stop wake => exact h.stop hl hs
  | timeout w =>
    dsimp only [stepOption] at hs
    split_ifs at hs with hw
    obtain rfl := Option.some.inj hs
    refine h.of_still (still_setWorker hw rfl) rfl rfl fun v pc hv => ?_
    by_cases hwv : w = v
    · subst hwv
      obtain ⟨hlt, -⟩ := List.getElem?_eq_some_iff.mp hw
      simp only [State.setWorker, List.getElem?_set_self hlt, Option.some.injEq] at hv
      exact .inr (hv ▸ rfl)
    · simp only [State.setWorker, List.getElem?_set_ne hwv] at hv
      exact .inl hv
  | wakeCall i =>
    have hsig : s.signalW (some i) = some s' := hs
    have ht : Touch s True False s' := touch_signalW trivial hsig
    obtain ⟨hstill, hq, -⟩ := still_signalW hsig
    exact h.of_still hstill hq ht.flag.1 fun v pc => ht.workers
  | wakeWorker w =>
    have hsig : s.signalR (some w) = some s' := hs
    have ht : Touch s False True s' := touch_signalR trivial hsig
    obtain ⟨hstill, hq, -⟩ := still_signalR hsig
    exact h.of_still hstill hq ht.flag.1 fun v pc => ht.workers

theorem released_start (k : Kind) : Released (start k) := by
  have htop : ∀ (w : ℕ) (pc : WorkerPc), (start k).workers[w]? = some pc → pc = .top := by
    intro w pc hw
    exact List.eq_of_mem_replicate (List.mem_of_getElem? hw)
  refine ⟨fun o => ?_, fun w pc hw => ?_⟩
  · have hout : inside (start k) o = false := by
      rcases o with i | w
      · rfl
      · rcases hw : (start k).workers[w]? with _ | pc
        · simp [inside, hw]
        · simp [inside, hw, htop w pc hw, workerHolds]
    rw [hout]
    simp [start]
  · rw [htop w pc hw]
    trivial

/-- The thread that stops has given all its signals. -/
structure Joining (k : Kind) (s : State) : Prop where
  inv : Inv k s
  released : Released s
  stopper : s.stopper = .joining

theorem Joining.step {l : Label} {o : Owner} (h : Joining k s) (hl : mover l = some o) :
    Joining k (Machine.step k s l) := by
  have hreach : Reaching k s l := by cases l <;> trivial
  refine ⟨inv_step k h.inv hreach, h.released.step hreach, ?_⟩
  unfold Machine.step
  rcases hs : stepOption k s l with _ | s'
  · exact h.stopper
  rw [Option.getD_some]
  cases l with
  | call i wake =>
    obtain ⟨pc, hpc, hs⟩ := Option.bind_eq_some_iff.mp hs
    cases callMove_of_step hs with
    | mk ht _ _ _ => exact ht.flag.2.trans h.stopper
  | worker w now i wake =>
    obtain ⟨pc, hpc, hs⟩ := Option.bind_eq_some_iff.mp hs
    cases workerMove_of_step hs with
    | mk ht _ _ _ => exact ht.flag.2.trans h.stopper
  | _ => cases hl

theorem unasked_of_mover {l : Label} {o : Owner} (h : mover l = some o) : Unasked l = false := by
  cases l <;> first | rfl | cases h

/-- The thread that has the lock takes steps until it is free. -/
theorem Joining.free_of_rank : ∀ (n : ℕ) {s : State} {o : Owner}, Joining k s →
    inside s o = true → rank s o ≤ n → ∃ ls : List Label, (∀ l ∈ ls, Unasked l = false) ∧
      Joining k (run (Machine.step k) s ls) ∧ (run (Machine.step k) s ls).holder = none := by
  intro n
  induction n with
  | zero =>
    intro s o h ho hn
    rw [inside_eq, decide_eq_true_eq] at ho
    omega
  | succ n ih =>
    intro s o h ho hn
    obtain ⟨l, s', hl, hs⟩ := inside_moves (k := k) ho
    have hstep : Machine.step k s l = s' := by
      unfold Machine.step
      rw [hs, Option.getD_some]
    have hjoin : Joining k s' := hstep ▸ h.step hl
    have ht := stepOption_turn hl hs
    cases hout : inside s' o with
    | true =>
      have hlt := ht.closer ho
      obtain ⟨ls, hls, hend⟩ := ih hjoin hout (by omega)
      refine ⟨l :: ls, ?_, ?_⟩
      · intro l' hl'
        rcases List.mem_cons.mp hl' with rfl | hl'
        · exact unasked_of_mover hl
        · exact hls l' hl'
      · simp only [run, List.foldl_cons, hstep] at hend ⊢
        exact hend
    | false =>
      have hlock := ht.lock.resolve_right fun hleak => h.released.not_leaks o hleak.1
      rw [ho, hout] at hlock
      refine ⟨[l], ?_, ?_⟩
      · intro l' hl'
        rw [List.mem_singleton.mp hl']
        exact unasked_of_mover hl
      · simp only [run, List.foldl_cons, List.foldl_nil, hstep]
        exact ⟨hjoin, hlock⟩

theorem Joining.free (h : Joining k s) : ∃ ls : List Label, (∀ l ∈ ls, Unasked l = false) ∧
    Joining k (run (Machine.step k) s ls) ∧ (run (Machine.step k) s ls).holder = none := by
  rcases ho : s.holder with _ | o
  · exact ⟨[], by simp, h, ho⟩
  · exact h.free_of_rank (rank s o) ((h.released.held o).mp ho) le_rfl

/-- A worker gets out of its wait when the lock is free. -/
theorem Joining.worker_leaves (h : Joining k s) (hnone : s.holder = none) (w : ℕ) :
    ¬ForsakenWorker k s w := by
  intro hw
  obtain ⟨pc, hpc, hwait⟩ := (Option.any_eq_true _ _).mp (hw [] (by simp))
  have hnot := h.inv.workers (by simp [h.stopper]) (by simp [h.stopper]) pc
    (List.mem_of_getElem? hpc)
  obtain rfl : pc = .relock := by
    cases pc with
    | relock => rfl
    | asleep => cases hnot
    | _ => cases hwait
  have hpc : s.workers[w]? = some .relock := hpc
  obtain ⟨hlt, -⟩ := List.getElem?_eq_some_iff.mp hpc
  have htest := hw [.worker w 0 0 none] (by simp [Unasked])
  simp only [run, List.foldl_cons, List.foldl_nil, Machine.step, stepOption, hpc] at htest
  simp [workerStep, State.lock, hnone, State.setWorker, hlt, workerInWait] at htest

/-- A producer gets out of its wait when the lock is free. -/
theorem Joining.call_leaves (h : Joining k s) (hnone : s.holder = none) (i : ℕ) :
    ¬ForsakenCall k s i := by
  intro hi
  obtain ⟨pc, hpc, hwait⟩ := (Option.any_eq_true _ _).mp (hi [] (by simp))
  have hnot := h.inv.calls (.inl h.stopper) pc (List.mem_of_getElem? hpc)
  obtain ⟨task, rfl⟩ : ∃ task, pc = .relock task := by
    cases pc with
    | relock task => exact ⟨task, rfl⟩
    | asleep task => cases hnot
    | _ => cases hwait
  have hpc : s.calls[i]? = some (.relock task) := hpc
  obtain ⟨hlt, -⟩ := List.getElem?_eq_some_iff.mp hpc
  have htest := hi [.call i none] (by simp [Unasked])
  simp only [run, List.foldl_cons, List.foldl_nil, Machine.step, stepOption, hpc] at htest
  simp [callStep, State.lock, hnone, State.setCall, hlt, callInWait] at htest

end Release

/-- **Stopping leaves nobody asleep**, in every run in which the signals of the thread that stops
reach the threads they are for. -/
theorem not_leftAsleep (k : Kind) {ls : List Label}
    (h : Guarded (step k) (Reaching k) (start k) ls) :
    ¬LeftAsleep k (run (step k) (start k) ls) := by
  have hinv := run_inv (Inv k) (fun _ _ hs hl => inv_step k hs hl) (inv_start k) h
  have hreleased := run_inv Released (fun _ _ hs hl => hs.step hl) (released_start k) h
  rintro ⟨hst, hleft⟩
  obtain ⟨ls', hls', hjoin, hnone⟩ := Joining.free ⟨hinv, hreleased, hst⟩
  have hunasked : ∀ ls'' : List Label, (∀ l ∈ ls'', Unasked l = false) →
      ∀ l ∈ ls' ++ ls'', Unasked l = false := fun ls'' h l hl =>
    (List.mem_append.mp hl).elim (hls' l) (h l)
  rcases hleft with ⟨w, hw⟩ | ⟨i, hi⟩
  · refine hjoin.worker_leaves hnone w fun ls'' h => ?_
    rw [← run_append]
    exact hw _ (hunasked ls'' h)
  · refine hjoin.call_leaves hnone i fun ls'' h => ?_
    rw [← run_append]
    exact hi _ (hunasked ls'' h)

/-- The worker is asleep when the signals come. -/
def asleepRun : List Label :=
  List.replicate 4 (.worker 0 0 0 none) ++ [.stop none, .stop (some 0), .stop none]

theorem not_leftAsleep_asleepRun :
    ¬LeftAsleep (.bg 1) (run (step (.bg 1)) (start (.bg 1)) asleepRun) :=
  not_leftAsleep (.bg 1) (by decide +kernel)

/-! ### Who is left asleep -/

/-- A worker is asleep, and no call is in front of its signal. -/
structure WorkerLost (s : State) (w : ℕ) : Prop where
  flag : s.shouldStop = true
  stopper : s.stopper = .joining
  asleep : s.workers[w]? = some .asleep
  calls : ∀ pc ∈ s.calls, armsR pc = false

/-- A call is asleep, and nobody will signal it. -/
structure CallLost (s : State) (i : ℕ) (task : Task) : Prop where
  flag : s.shouldStop = true
  stopper : s.stopper = .joining ∨ s.stopper = .joined
  asleep : s.calls[i]? = some (.asleep task)
  calls : ∀ pc ∈ s.calls, callArmsW pc = false
  workers : ∀ pc ∈ s.workers, workerArmsW pc = false

section Lost
variable {k : Kind} {s s' : State} {w i : ℕ} {task : Task}

theorem woken_arms {pc : CallPc} (h : pc.isAsleep = true) :
    armsR pc.woken = false ∧ callArmsW pc.woken = false := by
  cases pc <;> simp_all [CallPc.isAsleep, CallPc.woken, armsR, callArmsW]

theorem woken_workerArmsW {pc : WorkerPc} (h : pc.isAsleep = true) :
    workerArmsW pc.woken = false := by
  cases pc <;> simp_all [WorkerPc.isAsleep, WorkerPc.woken, workerArmsW]

theorem forall_mem_set {α : Type*} {P : α → Prop} {l : List α} {j : ℕ} {a : α}
    (h : ∀ x ∈ l, P x) (ha : P a) : ∀ x ∈ l.set j a, P x := by
  intro x hx
  rcases List.mem_or_eq_of_mem_set hx with hx | rfl
  · exact h x hx
  · exact ha

theorem WorkerLost.callMove {j : ℕ} {pc : CallPc} (h : WorkerLost s w)
    (hj : s.calls[j]? = some pc) (hm : CallMove s j pc s') : WorkerLost s' w := by
  have hpc := h.calls pc (List.mem_of_getElem? hj)
  cases hm with
  | @mk s₁ pc' ht _ hR _ =>
    have hpc' : armsR pc' = false := by
      by_contra hc
      have := hR (by simpa using hc)
      simp [h.flag] at this
    cases ht with
    | keep q holder => exact ⟨h.flag, h.stopper, h.asleep, forall_mem_set h.calls hpc'⟩
    | wakeCall _ hj ha =>
      exact ⟨h.flag, h.stopper, h.asleep,
        forall_mem_set (forall_mem_set h.calls (woken_arms ha).1) hpc'⟩
    | wakeWorker hR' => simp [hpc] at hR'

theorem WorkerLost.workerMove {v : ℕ} {pc : WorkerPc} (h : WorkerLost s w) (hv : v ≠ w)
    (hm : WorkerMove s v pc s') : WorkerLost s' w := by
  cases hm with
  | @mk s₁ pc' ht _ _ =>
    have hset : (s.workers.set v pc')[w]? = some .asleep := by
      rw [List.getElem?_set_ne hv]
      exact h.asleep
    cases ht with
    | keep q holder => exact ⟨h.flag, h.stopper, hset, h.calls⟩
    | wakeCall _ hj ha =>
      exact ⟨h.flag, h.stopper, hset, forall_mem_set h.calls (woken_arms ha).1⟩
    | wakeWorker hfalse => exact hfalse.elim

theorem WorkerLost.addCall {pc : CallPc} (h : WorkerLost s w) (hpc : armsR pc = false) :
    WorkerLost { s with calls := s.calls ++ [pc] } w := by
  refine ⟨h.flag, h.stopper, h.asleep, fun pc' hpc' => ?_⟩
  rcases List.mem_append.mp hpc' with hm | hm
  · exact h.calls pc' hm
  · exact List.mem_singleton.mp hm ▸ hpc

theorem WorkerLost.step {l : Label} (h : WorkerLost s w) (hl : Unasked l = false) :
    WorkerLost (step k s l) w := by
  unfold Machine.step
  cases hs : stepOption k s l with
  | none => exact h
  | some s' =>
    show WorkerLost s' w
    cases l with
    | schedule task => exact Option.some.inj hs ▸ h.addCall rfl
    | delaySchedule timeout now task => exact Option.some.inj hs ▸ h.addCall rfl
    | queueClear => simp [Unasked] at hl
    | call j wake =>
      obtain ⟨pc, hpc, hs⟩ := Option.bind_eq_some_iff.mp hs
      exact h.callMove hpc (callMove_of_step hs)
    | worker v now i wake =>
      obtain ⟨pc, hpc, hs⟩ := Option.bind_eq_some_iff.mp hs
      refine h.workerMove ?_ (workerMove_of_step hs)
      rintro rfl
      obtain rfl := Option.some.inj (h.asleep.symm.trans hpc)
      simp [workerStep] at hs
    | stop wake =>
      dsimp only [stepOption, stopStep] at hs
      rw [h.stopper] at hs
      dsimp only at hs
      split_ifs at hs with hall
      have := List.all_eq_true.mp hall _ (List.mem_of_getElem? h.asleep)
      simp at this
    | timeout v =>
      dsimp only [stepOption] at hs
      split_ifs at hs with hv
      obtain rfl := Option.some.inj hs
      refine ⟨h.flag, h.stopper, ?_, h.calls⟩
      show (s.workers.set v .timedRelock)[w]? = some .asleep
      rw [List.getElem?_set_ne]
      · exact h.asleep
      · rintro rfl
        rw [h.asleep] at hv
        simp at hv
    | wakeCall i => simp [Unasked] at hl
    | wakeWorker w => simp [Unasked] at hl

theorem WorkerLost.forsaken (h : WorkerLost s w) : ForsakenWorker k s w := by
  intro ls hls
  have hstep : ∀ s l, WorkerLost s w → Unasked l = false → WorkerLost (Machine.step k s l) w :=
    fun _ _ hs hl => hs.step hl
  rw [(run_inv_of_forall (WorkerLost · w) hstep h hls).asleep]
  rfl

theorem CallLost.callMove {j : ℕ} {pc : CallPc} (h : CallLost s i task)
    (hj : s.calls[j]? = some pc) (hji : j ≠ i) (hm : CallMove s j pc s') : CallLost s' i task := by
  have hpc := h.calls pc (List.mem_of_getElem? hj)
  cases hm with
  | @mk s₁ pc' ht _ _ hW =>
    have hpc' : callArmsW pc' = false := by
      by_contra hc
      have := hW (by simpa using hc)
      simp [hpc] at this
    have hset : (s.calls.set j pc')[i]? = some (.asleep task) := by
      rw [List.getElem?_set_ne hji]
      exact h.asleep
    cases ht with
    | keep q holder => exact ⟨h.flag, h.stopper, hset, forall_mem_set h.calls hpc', h.workers⟩
    | wakeCall hW' => simp [hpc] at hW'
    | wakeWorker _ _ ha =>
      exact ⟨h.flag, h.stopper, hset, forall_mem_set h.calls hpc',
        forall_mem_set h.workers (woken_workerArmsW ha)⟩

theorem CallLost.workerMove {v : ℕ} {pc : WorkerPc} (h : CallLost s i task)
    (hv : s.workers[v]? = some pc) (hm : WorkerMove s v pc s') : CallLost s' i task := by
  have hpc := h.workers pc (List.mem_of_getElem? hv)
  cases hm with
  | @mk s₁ pc' ht _ hW =>
    have hpc' : workerArmsW pc' = false := by
      by_contra hc
      rcases hW (by simpa using hc) with hw | hw
      · simp [hpc] at hw
      · simp [h.flag] at hw
    cases ht with
    | keep q holder =>
      exact ⟨h.flag, h.stopper, h.asleep, h.calls, forall_mem_set h.workers hpc'⟩
    | wakeCall hW' => simp [hpc] at hW'
    | wakeWorker hfalse => exact hfalse.elim

theorem CallLost.addCall {pc : CallPc} (h : CallLost s i task) (hpc : callArmsW pc = false) :
    CallLost { s with calls := s.calls ++ [pc] } i task := by
  refine ⟨h.flag, h.stopper, ?_, fun pc' hpc' => ?_, h.workers⟩
  · exact (List.getElem?_append_left (List.getElem?_eq_some_iff.mp h.asleep).1).trans h.asleep
  · rcases List.mem_append.mp hpc' with hm | hm
    · exact h.calls pc' hm
    · exact List.mem_singleton.mp hm ▸ hpc

theorem CallLost.step {l : Label} (h : CallLost s i task) (hl : Unasked l = false) :
    CallLost (step k s l) i task := by
  unfold Machine.step
  cases hs : stepOption k s l with
  | none => exact h
  | some s' =>
    show CallLost s' i task
    cases l with
    | schedule task => exact Option.some.inj hs ▸ h.addCall rfl
    | delaySchedule timeout now task => exact Option.some.inj hs ▸ h.addCall rfl
    | queueClear => simp [Unasked] at hl
    | call j wake =>
      obtain ⟨pc, hpc, hs⟩ := Option.bind_eq_some_iff.mp hs
      refine h.callMove hpc ?_ (callMove_of_step hs)
      rintro rfl
      obtain rfl := Option.some.inj (h.asleep.symm.trans hpc)
      simp [callStep] at hs
    | worker v now i wake =>
      obtain ⟨pc, hpc, hs⟩ := Option.bind_eq_some_iff.mp hs
      exact h.workerMove hpc (workerMove_of_step hs)
    | stop wake =>
      dsimp only [stepOption, stopStep] at hs
      rcases h.stopper with hst | hst
      · rw [hst] at hs
        dsimp only at hs
        split_ifs at hs
        exact Option.some.inj hs ▸ ⟨h.flag, .inr rfl, h.asleep, h.calls, h.workers⟩
      · rw [hst] at hs
        simp at hs
    | timeout v =>
      dsimp only [stepOption] at hs
      split_ifs at hs
      exact Option.some.inj hs ▸
        ⟨h.flag, h.stopper, h.asleep, h.calls, forall_mem_set h.workers rfl⟩
    | wakeCall i => simp [Unasked] at hl
    | wakeWorker w => simp [Unasked] at hl

theorem CallLost.forsaken (h : CallLost s i task) : ForsakenCall k s i := by
  intro ls hls
  have hstep : ∀ s l, CallLost s i task → Unasked l = false → CallLost (Machine.step k s l) i task :=
    fun _ _ hs hl => hs.step hl
  rw [(run_inv_of_forall (CallLost · i task) hstep h hls).asleep]
  rfl

end Lost

/-! ### Who is left without the lock -/

/-- A thread has gone away with the lock. -/
structure Stranded (s : State) : Prop where
  holder : s.holder ≠ none
  nobody : ∀ o, inside s o = false

section Stranding
variable {k : Kind} {s s₁ s' : State} {A B : Prop} {w i : ℕ} {t : Task}

theorem Stranded.step {l : Label} (h : Stranded s) (hs : stepOption k s l = some s') :
    Stranded s' := by
  rcases hm : mover l with _ | o
  · have hstill := stepOption_still hm hs
    exact ⟨by rw [hstill.holder]; exact h.holder, fun o => by rw [hstill.inside]; exact h.nobody o⟩
  · have ht := stepOption_turn hm hs
    have hself : inside s' o = false ∧ s'.holder = s.holder := by
      have hlock := ht.lock
      rw [h.nobody o] at hlock
      cases hout : inside s' o with
      | false =>
        rw [hout] at hlock
        exact ⟨rfl, hlock.elim id fun hleak => hleak.2.2⟩
      | true =>
        rw [hout] at hlock
        rcases hlock with hlock | ⟨-, hfalse, -⟩
        · exact absurd hlock.1 h.holder
        · cases hfalse
    refine ⟨by rw [hself.2]; exact h.holder, fun o' => ?_⟩
    by_cases he : o' = o
    · rw [he]
      exact hself.1
    · rw [ht.others o' he]
      exact h.nobody o'

/-- Nobody moves a thread that is awake. -/
theorem Touch.worker_stays (ht : Touch s A B s₁) (hw : s.workers[w]? = some .relock) :
    s₁.workers[w]? = some .relock := by
  cases ht with
  | keep q holder => exact hw
  | wakeCall _ _ _ => exact hw
  | @wakeWorker _ j pc hj ha =>
    have hne : j ≠ w := by
      rintro rfl
      obtain rfl := Option.some.inj (hj.symm.trans hw)
      cases ha
    simp only [State.setWorker, List.getElem?_set_ne hne]
    exact hw

theorem Touch.call_stays (ht : Touch s A B s₁) (hi : s.calls[i]? = some (.relock t)) :
    s₁.calls[i]? = some (.relock t) := by
  cases ht with
  | keep q holder => exact hi
  | wakeWorker _ _ _ => exact hi
  | @wakeCall _ j pc hj ha =>
    have hne : j ≠ i := by
      rintro rfl
      obtain rfl := Option.some.inj (hj.symm.trans hi)
      cases ha
    simp only [State.setCall, List.getElem?_set_ne hne]
    exact hi

/-- The thread that stops changes no thread that is awake. -/
theorem stopStep_stays {wake : Option ℕ} (hs : stopStep k s wake = some s') :
    (s.workers[w]? = some .relock → s'.workers[w]? = some .relock) ∧
      (s.calls[i]? = some (.relock t) → s'.calls[i]? = some (.relock t)) := by
  unfold stopStep at hs
  split at hs
  · obtain rfl := Option.some.inj hs
    exact ⟨id, id⟩
  · obtain ⟨s₁, h1, rfl⟩ := Option.map_eq_some_iff.mp hs
    cases k with
    | bg full =>
      have hsig : s.signalR wake = some s₁ := h1
      have ht : Touch s False True s₁ := touch_signalR trivial hsig
      exact ⟨ht.worker_stays, ht.call_stays⟩
    | pool workerNum =>
      obtain rfl := Option.some.inj h1
      exact ⟨fun hw => by simp [State.signalAllR, hw, WorkerPc.woken], id⟩
  · obtain ⟨s₁, h1, rfl⟩ := Option.map_eq_some_iff.mp hs
    cases k with
    | bg full =>
      have hsig : s.signalW wake = some s₁ := h1
      have ht : Touch s True False s₁ := touch_signalW trivial hsig
      exact ⟨ht.worker_stays, ht.call_stays⟩
    | pool workerNum =>
      obtain rfl := Option.some.inj h1
      exact ⟨id, fun hi => by simp [State.signalAllW, hi, CallPc.woken]⟩
  · split_ifs at hs
    obtain rfl := Option.some.inj hs
    exact ⟨id, id⟩
  · simp at hs

/-- **A thread that waits for the lock goes on waiting.** -/
theorem Stranded.stays {l : Label} (h : Stranded s) (hs : stepOption k s l = some s') :
    (s.workers[w]? = some .relock → s'.workers[w]? = some .relock) ∧
      (s.calls[i]? = some (.relock t) → s'.calls[i]? = some (.relock t)) := by
  have hadd : ∀ pc, s.calls[i]? = some (.relock t) →
      (s.calls ++ [pc])[i]? = some (.relock t) := fun pc hi => by
    rw [List.getElem?_append_left (List.getElem?_eq_some_iff.mp hi).1]
    exact hi
  cases l with
  | schedule task => exact Option.some.inj hs ▸ ⟨id, hadd _⟩
  | delaySchedule timeout now task => exact Option.some.inj hs ▸ ⟨id, hadd _⟩
  | queueClear =>
    cases k with
    | bg full => exact Option.some.inj hs ▸ ⟨id, hadd _⟩
    | pool workerNum => simp [stepOption] at hs
  | call j wake =>
    obtain ⟨pc, hpc, hs⟩ := Option.bind_eq_some_iff.mp hs
    cases callMove_of_step hs with
    | @mk s₁ pc' ht _ _ _ =>
      refine ⟨ht.worker_stays, fun hi => ?_⟩
      have hne : j ≠ i := by
        rintro rfl
        obtain rfl := Option.some.inj (hpc.symm.trans hi)
        simp [callStep, State.lock, h.holder] at hs
      simp only [State.setCall, List.getElem?_set_ne hne]
      exact ht.call_stays hi
  | worker v now j wake =>
    obtain ⟨pc, hpc, hs⟩ := Option.bind_eq_some_iff.mp hs
    cases workerMove_of_step hs with
    | @mk s₁ pc' ht _ _ _ =>
      refine ⟨fun hw => ?_, ht.call_stays⟩
      have hne : v ≠ w := by
        rintro rfl
        obtain rfl := Option.some.inj (hpc.symm.trans hw)
        simp [workerStep, State.lock, h.holder] at hs
      simp only [State.setWorker, List.getElem?_set_ne hne]
      exact ht.worker_stays hw
  | stop wake => exact stopStep_stays hs
  | timeout v =>
    dsimp only [stepOption] at hs
    split_ifs at hs with hv
    obtain rfl := Option.some.inj hs
    refine ⟨fun hw => ?_, id⟩
    have hne : v ≠ w := by
      rintro rfl
      rw [hv] at hw
      cases hw
    simp only [State.setWorker, List.getElem?_set_ne hne]
    exact hw
  | wakeCall j =>
    have hsig : s.signalW (some j) = some s' := hs
    have ht : Touch s True False s' := touch_signalW trivial hsig
    exact ⟨ht.worker_stays, ht.call_stays⟩
  | wakeWorker v =>
    have hsig : s.signalR (some v) = some s' := hs
    have ht : Touch s False True s' := touch_signalR trivial hsig
    exact ⟨ht.worker_stays, ht.call_stays⟩

theorem Stranded.forsakenWorker (h : Stranded s) (hw : s.workers[w]? = some .relock) :
    ForsakenWorker k s w := by
  intro ls _
  have hend : Stranded (run (Machine.step k) s ls) ∧
      (run (Machine.step k) s ls).workers[w]? = some .relock :=
    run_inv_of_step (fun s : State => Stranded s ∧ s.workers[w]? = some .relock)
      (fun s l hs => ?_) ⟨h, hw⟩ ls
  · rw [hend.2]
    rfl
  · unfold Machine.step
    rcases hstep : stepOption k s l with _ | s'
    · exact hs
    · exact ⟨hs.1.step hstep, (hs.1.stays (i := 0) (t := ⟨0, 0⟩) hstep).1 hs.2⟩

theorem Stranded.forsakenCall (h : Stranded s) (hi : s.calls[i]? = some (.relock t)) :
    ForsakenCall k s i := by
  intro ls _
  have hend : Stranded (run (Machine.step k) s ls) ∧
      (run (Machine.step k) s ls).calls[i]? = some (.relock t) :=
    run_inv_of_step (fun s : State => Stranded s ∧ s.calls[i]? = some (.relock t))
      (fun s l hs => ?_) ⟨h, hi⟩ ls
  · rw [hend.2]
    rfl
  · unfold Machine.step
    rcases hstep : stepOption k s l with _ | s'
    · exact hs
    · exact ⟨hs.1.step hstep, (hs.1.stays (w := 0) hstep).2 hs.2⟩

/-- Nobody is at a place with the lock, if none of the threads is. -/
theorem stranded_of_lists (hholder : s.holder ≠ none)
    (hcalls : ∀ pc ∈ s.calls, callHolds pc = false)
    (hworkers : ∀ pc ∈ s.workers, workerHolds pc = false) : Stranded s := by
  refine ⟨hholder, ?_⟩
  rintro (i | w)
  · rcases hi : s.calls[i]? with _ | pc
    · simp [inside, hi]
    · simp [inside, hi, hcalls pc (List.mem_of_getElem? hi)]
  · rcases hw : s.workers[w]? with _ | pc
    · simp [inside, hw]
    · simp [inside, hw, hworkers pc (List.mem_of_getElem? hw)]

end Stranding

/-- The worker has tested `should_stop()` and waits when all the signals have been given. -/
def windowRun : List Label :=
  List.replicate 3 (.worker 0 0 0 none) ++ List.replicate 3 (.stop none) ++ [.worker 0 0 0 none]

/-- One task fills the queue, two producers are asleep, and one of them is signalled. -/
def producersRun : List Label :=
  List.replicate 3 (.schedule ⟨1, 0⟩) ++ List.replicate 5 (.call 0 none) ++
    List.replicate 3 (.call 1 none) ++ List.replicate 3 (.call 2 none) ++
    [.stop none, .stop none, .stop (some 1)]

/-- One of two workers is woken for a delayed task. The other one finds it, before it is due, when
the flag is set, and exits with the lock. -/
def leakRun : List Label :=
  List.replicate 4 (Label.worker 1 0 0 none) ++
    [Label.delaySchedule 1 0 ⟨1, 0⟩, .call 0 none, .call 0 none, .call 0 (some 1), .call 0 none] ++
    List.replicate 4 (Label.worker 0 0 0 none) ++ [Label.stop none] ++
    List.replicate 3 (Label.worker 0 0 0 none) ++ List.replicate 2 (Label.stop none)

/-- The worker of a `BGThread` takes the task that a producer waits for, finds only a delayed task
when the flag is set, and locks itself out. -/
def lockoutRun : List Label :=
  [Label.schedule ⟨1, 0⟩, .delaySchedule 1 0 ⟨2, 0⟩, .schedule ⟨3, 0⟩] ++
    List.replicate 5 (Label.call 0 none) ++ List.replicate 4 (Label.call 1 none) ++
    List.replicate 3 (Label.call 2 none) ++ List.replicate 6 (Label.worker 0 0 0 none) ++
    [Label.worker 0 0 0 (some 2)] ++ List.replicate 6 (Label.worker 0 0 0 none) ++
    [Label.stop none] ++ List.replicate 3 (Label.worker 0 0 0 none) ++
    List.replicate 2 (Label.stop none)

/-- A worker of a `BGThread`, a worker of a pool, and a producer of a `BGThread` sleep for ever; a
worker of a pool and a producer of a `BGThread` are woken and never get the lock. -/
theorem left_asleep :
    LeftAsleep (.bg 1) (run (step (.bg 1)) (start (.bg 1)) windowRun) ∧
      LeftAsleep (.pool 1) (run (step (.pool 1)) (start (.pool 1)) windowRun) ∧
      LeftAsleep (.bg 1) (run (step (.bg 1)) (start (.bg 1)) producersRun) ∧
      LeftAsleep (.pool 2) (run (step (.pool 2)) (start (.pool 2)) leakRun) ∧
      LeftAsleep (.bg 1) (run (step (.bg 1)) (start (.bg 1)) lockoutRun) := by
  refine ⟨⟨by decide +kernel, .inl ⟨0, ?_⟩⟩, ⟨by decide +kernel, .inl ⟨0, ?_⟩⟩,
    ⟨by decide +kernel, .inr ⟨2, ?_⟩⟩, ⟨by decide +kernel, .inl ⟨1, ?_⟩⟩,
    ⟨by decide +kernel, .inr ⟨2, ?_⟩⟩⟩
  · exact WorkerLost.forsaken
      ⟨by decide +kernel, by decide +kernel, by decide +kernel, by decide +kernel⟩
  · exact WorkerLost.forsaken
      ⟨by decide +kernel, by decide +kernel, by decide +kernel, by decide +kernel⟩
  · have hlost : CallLost (run (step (.bg 1)) (start (.bg 1)) producersRun) 2 ⟨1, 0⟩ :=
      ⟨by decide +kernel, by decide +kernel, by decide +kernel, by decide +kernel,
        by decide +kernel⟩
    exact hlost.forsaken
  · have hstranded : Stranded (run (step (.pool 2)) (start (.pool 2)) leakRun) :=
      stranded_of_lists (by decide +kernel) (by decide +kernel) (by decide +kernel)
    exact hstranded.forsakenWorker (by decide +kernel)
  · have hstranded : Stranded (run (step (.bg 1)) (start (.bg 1)) lockoutRun) :=
      stranded_of_lists (by decide +kernel) (by decide +kernel) (by decide +kernel)
    have hcall : (run (step (.bg 1)) (start (.bg 1)) lockoutRun).calls[2]? =
        some (.relock ⟨3, 0⟩) := by
      decide +kernel
    exact hstranded.forsakenCall hcall

end Pink.Tasks.Stopping
