import Pink.Tasks.Accounting
import Pink.Tasks.Lock
import Pink.Tasks.Stopping

/-! # The threads of a task queue settle

As long as nobody stops the queues, no wake-up is lost: a task that is queued has a call of
`Schedule` in front of its signal or a worker that is on its way to the queue, and a producer that
sleeps has a task in the queue, which the worker that takes it signals for. So some thread can move
as long as a call has not returned or a task is queued.

Every thread is charged for the way that it has still to go, a queued task for the worker and the
producer that it wakes. A move pays off some of it (`workerStep_effect`, `callStep_effect`), so the
moves come to an end, whatever the order of the threads (`settles`). -/

namespace Pink.Tasks.Settling

open Pink.Lib.Runs Pink.Tasks.Machine Pink.Tasks.Lock
open Pink.Tasks.Stopping (workerWaits callWaits)

/-! ### What should hold -/

/-- A step of a call or of a worker. The end of a `TimedWait` is none of them. -/
def isMove : Label → Bool
  | .call _ _ | .worker _ _ _ _ => true
  | _ => false

/-- A call or a worker can take this step. -/
def Moves (k : Kind) (s : State) (l : Label) : Prop :=
  isMove l = true ∧ (stepOption k s l).isSome = true

instance (k : Kind) (s : State) (l : Label) : Decidable (Moves k s l) :=
  inferInstanceAs (Decidable (_ ∧ _))

/-- Nobody has begun to stop the queues. -/
def isStop : Label → Bool
  | .stop _ => true
  | _ => false

/-- Every call has returned, the workers sleep, and no task is queued; if delayed tasks are, then a
worker waits until the next of them is due. -/
structure Settled (s : State) : Prop where
  calls : ∀ pc ∈ s.calls, pc = .done
  workers : ∀ pc ∈ s.workers, pc.isAsleep = true
  queue : s.q.queue = []
  timers : s.q.timerQueue ≠ [] → .timedAsleep ∈ s.workers
  /-- What was accepted has been taken, or dropped by `QueueClear`. -/
  gone : s.q.accepted = s.q.gone.map Prod.fst

/-! ### What is left to do -/

/-- The worker sleeps, or is about to. -/
def rests : WorkerPc → Bool
  | .wait | .asleep | .timedWait | .timedAsleep => true
  | _ => false

/-- The call is on its way to push a task, or to signal a producer. -/
def pushes : CallPc → Bool
  | .relock _ | .test _ | .push _ | .clearSignal => true
  | _ => false

def signals : WorkerPc → Bool
  | .signal _ => true
  | _ => false

def callWork : CallPc → ℕ
  | .done => 0
  | .unlock => 1
  | .clearSignal => 5
  | .clear => 6
  | .clearLock => 7
  | .signal => 10
  | .delayPush _ => 18
  | .delayLock _ => 19
  | .push _ | .asleep _ => 23
  | .wait _ => 24
  | .test _ => 25
  | .lock _ | .relock _ => 26

def workerWork : WorkerPc → ℕ
  | .wait | .timedWait | .serveQueue => 1
  | .serve => 2
  | .check => 3
  | .test => 4
  | .lock | .relock => 5
  | .top => 6
  | .run _ | .timedUnlock => 7
  | .unlockRun _ | .timedRelock => 8
  | .signal _ => 12
  | _ => 0

def queueWork (q : Queues) : ℕ := 12 * q.queue.length + 7 * q.timerQueue.length

/-- At most so many moves are left. -/
def work (s : State) : ℕ :=
  (s.calls.map callWork).sum + (s.workers.map workerWork).sum + queueWork s.q

/-! ### What a move does -/

/-- What a worker with the lock knows of the queues; nobody has told it to stop. -/
def Serving (q : Queues) : WorkerPc → Prop
  | .check | .serve => q.queue ≠ [] ∨ q.timerQueue ≠ []
  | .serveQueue => q.queue ≠ []
  | .leave | .swallowLock | .swallow | .swallowUnlock _ | .swallowRun _ | .swallowNow |
    .timersLock _ | .timers _ | .timersUnlock _ _ | .timersRun _ _ | .exited => False
  | _ => True

/-- A move of a call: what is left to do gets less, and who waits has a task to wait for. -/
inductive CallEffect (s : State) (i : ℕ) (pc : CallPc) : State → Prop
  | own {q : Queues} {m : Option Owner} {pc' : CallPc}
      (hwork : callWork pc' + queueWork q < callWork pc + queueWork s.q)
      (hsignal : pc ≠ .signal)
      (hqueue : q.queue ≠ [] → s.q.queue ≠ [] ∨ pc' = .signal)
      (htimers : q.timerQueue ≠ [] → s.q.timerQueue ≠ [] ∨ pc' = .signal)
      (hkept : s.q.queue ≠ [] → q.queue ≠ [] ∨ pc' = .clearSignal)
      (hwaits : callWaits pc' = true → callWaits pc = true ∨ q.queue ≠ [])
      (hpushes : pushes pc = true → pushes pc' = true ∨ q.queue ≠ []) :
      CallEffect s i pc (State.setCall { s with q, holder := m } i pc')
  | signal {s₁ : State} {wake : Option ℕ} (hpc : pc = .signal) (h : s.signalR wake = some s₁) :
      CallEffect s i pc (s₁.setCall i .unlock)
  | clearSignal {s₁ : State} {wake : Option ℕ} (hpc : pc = .clearSignal)
      (h : s.signalW wake = some s₁) : CallEffect s i pc (s₁.setCall i .unlock)

/-- A move of a worker. -/
inductive WorkerEffect (s : State) (w : ℕ) (pc : WorkerPc) : State → Prop
  | own {q : Queues} {m : Option Owner} {pc' : WorkerPc}
      (hwork : workerWork pc' + queueWork q < workerWork pc + queueWork s.q)
      (hsignal : signals pc = false)
      (hqueue : q.queue ≠ [] → s.q.queue ≠ [])
      (htimers : q.timerQueue ≠ [] → s.q.timerQueue ≠ [])
      (hkept : s.q.queue ≠ [] → q.queue ≠ [] ∨ signals pc' = true)
      (hrests : rests pc' = true → rests pc = true ∨ q.queue = [])
      (hwaits : workerWaits pc' = true → workerWaits pc = true ∨ q.timerQueue = [])
      (hserving : Serving q pc') :
      WorkerEffect s w pc (State.setWorker { s with q, holder := m } w pc')
  | signal {s₁ : State} {task : Task} {wake : Option ℕ} (hpc : pc = .signal task)
      (h : s.signalW wake = some s₁) : WorkerEffect s w pc (s₁.setWorker w (.unlockRun task))

section Effects
variable {k : Kind} {s s' : State}

/-- A call that takes the lock. -/
theorem callEffect_lock {i : ℕ} {pc pc' : CallPc}
    (h : (s.lock (.call i)).map (·.setCall i pc') = some s') (hwork : callWork pc' < callWork pc)
    (hsignal : pc ≠ .signal) (hwaits : callWaits pc' = false)
    (hpushes : pushes pc = true → pushes pc' = true) : CallEffect s i pc s' := by
  obtain ⟨s₁, h1, rfl⟩ := Option.map_eq_some_iff.mp h
  obtain ⟨-, rfl⟩ := lock_eq h1
  exact .own (q := s.q) (Nat.add_lt_add_right hwork _) hsignal .inl .inl .inl (by simp [hwaits])
    fun hp => .inl (hpushes hp)

/-- A call that gives the lock back. -/
theorem callEffect_unlock {i : ℕ} {pc pc' : CallPc} (h : some (s.unlock.setCall i pc') = some s')
    (hwork : callWork pc' < callWork pc) (hsignal : pc ≠ .signal)
    (hwaits : callWaits pc' = true → callWaits pc = true) (hpushes : pushes pc = false) :
    CallEffect s i pc s' := by
  obtain rfl := Option.some.inj h
  exact .own (q := s.q) (Nat.add_lt_add_right hwork _) hsignal .inl .inl .inl
    (fun hw => .inl (hwaits hw)) (by simp [hpushes])

/-- **What a call does.** -/
theorem callStep_effect (hfull : 0 < k.full) (hstop : s.shouldStop = false) {i : ℕ}
    {wake : Option ℕ} {pc : CallPc} (h : callStep k s i wake pc = some s') :
    CallEffect s i pc s' := by
  cases pc with
  | lock task | relock task | delayLock item | clearLock =>
    exact callEffect_lock h (by simp [callWork]) (by simp) rfl (by simp [pushes])
  | asleep task | done => simp [callStep] at h
  | test task =>
    obtain rfl := Option.some.inj h
    split_ifs with hc
    · have hne : s.q.queue ≠ [] := List.length_pos_iff.mp (lt_of_lt_of_le hfull hc.1)
      exact .own (q := s.q) (m := s.holder) (Nat.add_lt_add_right (by simp [callWork]) _)
        (by simp) .inl .inl .inl (fun _ => .inr hne) fun _ => .inr hne
    · exact .own (q := s.q) (m := s.holder) (Nat.add_lt_add_right (by simp [callWork]) _)
        (by simp) .inl .inl .inl (by simp [callWaits]) fun _ => .inl rfl
  | wait task => exact callEffect_unlock h (by simp [callWork]) (by simp) (fun _ => rfl) rfl
  | push task =>
    obtain rfl := Option.some.inj h
    rw [if_neg (by simp [hstop])]
    refine .own (m := s.holder) ?_ (by simp) (fun _ => .inr rfl) (fun _ => .inr rfl)
      (fun _ => .inl (by simp [Queues.push])) (by simp [callWaits])
      fun _ => .inr (by simp [Queues.push])
    simp only [queueWork, Queues.push, List.length_append, List.length_singleton, callWork]
    omega
  | delayPush item =>
    obtain rfl := Option.some.inj h
    rw [if_neg (by simp [hstop])]
    refine .own (m := s.holder) ?_ (by simp) .inl (fun _ => .inr rfl) .inl
      (by simp [callWaits]) (by simp [pushes])
    simp only [queueWork, Queues.pushTimer, List.length_append, List.length_singleton, callWork]
    omega
  | signal =>
    obtain ⟨s₁, h1, rfl⟩ := Option.map_eq_some_iff.mp h
    exact .signal rfl h1
  | clear =>
    obtain rfl := Option.some.inj h
    refine .own (m := s.holder) ?_ (by simp) (by simp [Queues.clear])
      (by simp [Queues.clear]) (fun _ => .inr rfl) (by simp [callWaits]) (by simp [pushes])
    simp only [queueWork, Queues.clear, List.length_nil, callWork]
    omega
  | clearSignal =>
    obtain ⟨s₁, h1, rfl⟩ := Option.map_eq_some_iff.mp h
    exact .clearSignal rfl h1
  | unlock =>
    exact callEffect_unlock h (by simp [callWork]) (by simp) (by simp [callWaits]) rfl

/-- A worker that takes the lock. -/
theorem workerEffect_lock {w : ℕ} {pc pc' : WorkerPc}
    (h : (s.lock (.worker w)).map (·.setWorker w pc') = some s')
    (hwork : workerWork pc' < workerWork pc) (hsignal : signals pc = false)
    (hrests : rests pc' = false) (hwaits : workerWaits pc' = false)
    (hserving : Serving s.q pc') : WorkerEffect s w pc s' := by
  obtain ⟨s₁, h1, rfl⟩ := Option.map_eq_some_iff.mp h
  obtain ⟨-, rfl⟩ := lock_eq h1
  exact .own (q := s.q) (Nat.add_lt_add_right hwork _) hsignal id id .inl (by simp [hrests])
    (by simp [hwaits]) hserving

/-- A worker that leaves the queues and the lock alone, or gives the lock back. -/
theorem workerEffect_same {w : ℕ} {pc pc' : WorkerPc} {holder : Option Owner}
    (h : some (State.setWorker { s with holder } w pc') = some s')
    (hwork : workerWork pc' < workerWork pc) (hsignal : signals pc = false)
    (hrests : rests pc' = true → rests pc = true)
    (hwaits : workerWaits pc' = true → workerWaits pc = true) (hserving : Serving s.q pc') :
    WorkerEffect s w pc s' := by
  obtain rfl := Option.some.inj h
  exact .own (q := s.q) (Nat.add_lt_add_right hwork _) hsignal id id .inl
    (fun hr => .inl (hrests hr)) (fun hw => .inl (hwaits hw)) hserving

theorem length_eraseIdx_of_top {q : Queues} {i : ℕ} {item : TimerItem} (h : q.top i = some item) :
    (q.timerQueue.eraseIdx i).length + 1 = q.timerQueue.length := by
  obtain ⟨hi, -⟩ := Option.filter_eq_some_iff.mp h
  obtain ⟨hlt, -⟩ := List.getElem?_eq_some_iff.mp hi
  rw [List.length_eraseIdx_of_lt hlt]
  omega

/-- **What a worker does.** -/
theorem workerStep_effect (hstop : s.shouldStop = false) {w : ℕ} {now : UInt64} {i : ℕ}
    {wake : Option ℕ} {pc : WorkerPc} (hserving : Serving s.q pc)
    (h : workerStep k s w now i wake pc = some s') : WorkerEffect s w pc s' := by
  cases pc with
  | lock | relock | timedRelock =>
    exact workerEffect_lock h (by simp [workerWork]) rfl rfl rfl trivial
  | asleep | timedAsleep => simp [workerStep] at h
  | leave | swallowLock | swallow | swallowUnlock | swallowRun | swallowNow | timersLock | timers |
    timersUnlock | timersRun | exited => exact hserving.elim
  | top =>
    dsimp only [workerStep] at h
    rw [if_neg (by simp [hstop])] at h
    exact workerEffect_same h (by simp [workerWork]) rfl (by simp [rests])
      (by simp [workerWaits]) trivial
  | test =>
    obtain rfl := Option.some.inj h
    split_ifs with hc
    · exact .own (q := s.q) (m := s.holder) (Nat.add_lt_add_right (by simp [workerWork]) _) rfl id
        id .inl (fun _ => .inr hc.1) (fun _ => .inr hc.2.1) trivial
    · refine .own (q := s.q) (m := s.holder) (Nat.add_lt_add_right (by simp [workerWork]) _) rfl id
        id .inl (by simp [rests]) (by simp [workerWaits]) ?_
      by_cases hqueue : s.q.queue = []
      · exact .inr fun htimers => hc ⟨hqueue, htimers, by simp [hstop]⟩
      · exact .inl hqueue
  | wait =>
    exact workerEffect_same h (by simp [workerWork]) rfl (fun _ => rfl) (fun _ => rfl)
      trivial
  | check =>
    dsimp only [workerStep] at h
    rw [if_neg (by simp [hstop])] at h
    exact workerEffect_same h (by simp [workerWork]) rfl (by simp [rests])
      (by simp [workerWaits]) hserving
  | serve =>
    dsimp only [workerStep] at h
    by_cases h0 : s.q.timerQueue = []
    · rw [if_pos h0] at h
      exact workerEffect_same h (by simp [workerWork]) rfl (by simp [rests])
        (by simp [workerWaits]) (hserving.resolve_right (not_not.mpr h0))
    rw [if_neg h0] at h
    obtain ⟨item, htop, he⟩ := Option.map_eq_some_iff.mp h
    split_ifs at he with hdue hempty
    · rw [← he]
      have hlen := length_eraseIdx_of_top htop
      refine .own (m := s.holder) ?_ rfl id (fun _ => h0) .inl (by simp [rests])
        (by simp [workerWaits]) trivial
      simp only [queueWork, Queues.popTimer, workerWork]
      omega
    · rw [← he]
      exact .own (q := s.q) (m := s.holder)
        (Nat.add_lt_add_right (by simp [workerWork]) _) rfl id id .inl (fun _ => .inr hempty.1)
        (by simp [workerWaits]) trivial
    · refine workerEffect_same (congrArg some he) (by simp [workerWork]) rfl
        (by simp [rests]) (by simp [workerWaits]) ?_
      exact fun hq => hempty ⟨hq, by simp [hstop]⟩
  | timedWait =>
    exact workerEffect_same h (by simp [workerWork]) rfl (fun _ => rfl)
      (by simp [workerWaits]) trivial
  | timedUnlock =>
    exact workerEffect_same h (by simp [workerWork]) rfl (by simp [rests])
      (by simp [workerWaits]) trivial
  | serveQueue =>
    dsimp only [workerStep] at h
    split at h
    · rename_i hq
      exact absurd hq hserving
    case _ task rest hq =>
      obtain rfl := Option.some.inj h
      refine .own (m := s.holder) ?_ rfl (fun _ => hserving) id (fun _ => .inr rfl)
        (by simp [rests]) (by simp [workerWaits]) trivial
      simp only [queueWork, Queues.pop, workerWork, hq, List.length_cons]
      omega
  | signal task =>
    obtain ⟨s₁, h1, rfl⟩ := Option.map_eq_some_iff.mp h
    exact .signal rfl h1
  | unlockRun task =>
    exact workerEffect_same h (by simp [workerWork]) rfl (by simp [rests])
      (by simp [workerWaits]) trivial
  | run task =>
    exact workerEffect_same h (by simp [workerWork]) rfl (by simp [rests])
      (by simp [workerWaits]) trivial

end Effects

/-! ### The places -/

section Places

theorem mem_set_self {α : Type*} {l : List α} {i : ℕ} {a : α} (h : l[i]? = some a) (b : α) :
    b ∈ l.set i b :=
  List.mem_iff_getElem?.mpr ⟨i, by
    obtain ⟨hlt, -⟩ := List.getElem?_eq_some_iff.mp h
    simp [hlt]⟩

/-- The other threads are where they were. -/
theorem mem_set_of_ne {α : Type*} {l : List α} {i : ℕ} {a x : α} (h : l[i]? = some a) (hx : x ∈ l)
    (hne : x ≠ a) (b : α) : x ∈ l.set i b := by
  obtain ⟨j, hj⟩ := List.mem_iff_getElem?.mp hx
  have hij : i ≠ j := by
    rintro rfl
    rw [h] at hj
    exact hne (Option.some.inj hj).symm
  exact List.mem_iff_getElem?.mpr ⟨j, by rw [List.getElem?_set_ne hij, hj]⟩

theorem exists_mem_set {α : Type*} {P : α → Prop} {l : List α} {i : ℕ} {a b : α}
    (h : l[i]? = some a) (hab : P a → P b) : (∃ x ∈ l, P x) → ∃ x ∈ l.set i b, P x := by
  rintro ⟨x, hx, hP⟩
  by_cases hxa : x = a
  · subst hxa
    exact ⟨b, mem_set_self h b, hab hP⟩
  · exact ⟨x, mem_set_of_ne h hx hxa b, hP⟩

end Places

/-! ### The invariant -/

/-- Nobody has begun to stop the queues, and no wake-up is lost. -/
structure Inv (s : State) : Prop where
  flag : s.shouldStop = false
  held : Held s
  serving : ∀ (w : ℕ) (pc : WorkerPc), s.workers[w]? = some pc → Serving s.q pc
  workers : s.workers ≠ []
  /-- Somebody will look at the queue. -/
  queue : s.q.queue ≠ [] → .signal ∈ s.calls ∨ ∃ pc ∈ s.workers, rests pc = false
  timers : s.q.timerQueue ≠ [] → .signal ∈ s.calls ∨ ∃ pc ∈ s.workers, workerWaits pc = false
  /-- Somebody will signal the producers. -/
  producers : (∃ pc ∈ s.calls, callWaits pc = true) →
    s.q.queue ≠ [] ∨ (∃ pc ∈ s.workers, signals pc = true) ∨ ∃ pc ∈ s.calls, pushes pc = true

section Keep
variable {s s₁ s' : State}

/-- A worker without the lock knows nothing of the queues. -/
theorem serving_of_not_holds {q q' : Queues} {pc : WorkerPc} (h : Serving q pc)
    (hpc : workerHolds pc = false) : Serving q' pc := by
  cases pc <;> first | exact h | cases hpc

/-- Only the thread with the lock changes the queues. -/
theorem Inv.serving_others (h : Inv s) {q : Queues} {o : Owner}
    (hq : q = s.q ∨ inside s o = true) {w : ℕ} {pc : WorkerPc} (hpc : s.workers[w]? = some pc)
    (hne : .worker w ≠ o) : Serving q pc := by
  rcases hq with rfl | ho
  · exact h.serving w pc hpc
  · refine serving_of_not_holds (h.serving w pc hpc) ?_
    by_contra hp
    have hin : inside s (.worker w) = true := by simpa [inside, hpc] using hp
    exact hne (h.held.locked.eq hin ho)

theorem pushes_woken {pc : CallPc} (h : pc.isAsleep = true) : pushes pc.woken = true := by
  cases pc <;> first | rfl | cases h

theorem not_rests_woken {pc : WorkerPc} (h : pc.isAsleep = true) :
    rests pc.woken = false ∧ workerWaits pc.woken = false ∧ signals pc = false := by
  cases pc <;> first | exact ⟨rfl, rfl, rfl⟩ | cases h

theorem callHolds_of_waits {pc : CallPc} (h : callWaits pc = true) (ha : pc.isAsleep = false) :
    callHolds pc = true := by
  cases pc <;> simp_all [callWaits, callHolds, CallPc.isAsleep]

theorem not_rests_of_not_holds {pc : WorkerPc} (ha : pc.isAsleep = false)
    (h : workerHolds pc = false) : rests pc = false ∧ workerWaits pc = false := by
  cases pc <;> simp_all [rests, workerWaits, workerHolds, WorkerPc.isAsleep]

/-- A call is woken. -/
theorem Inv.wakeCall (h : Inv s) {j : ℕ} {pc : CallPc} (hj : s.calls[j]? = some pc)
    (ha : pc.isAsleep = true) : Inv (s.setCall j pc.woken) := by
  have hne : pc ≠ .signal := by
    rintro rfl
    cases ha
  have hmem := mem_set_self hj pc.woken
  refine ⟨h.flag, h.held.still (still_setCall hj (woken_callRank ha)), h.serving, h.workers,
    fun hq => ?_, fun hq => ?_, fun _ => ?_⟩
  · exact (h.queue hq).imp (fun hsig => mem_set_of_ne hj hsig hne.symm _) id
  · exact (h.timers hq).imp (fun hsig => mem_set_of_ne hj hsig hne.symm _) id
  · exact .inr (.inr ⟨_, hmem, pushes_woken ha⟩)

/-- A worker is woken. -/
theorem Inv.wakeWorker (h : Inv s) {j : ℕ} {pc : WorkerPc} (hj : s.workers[j]? = some pc)
    (ha : pc.isAsleep = true) : Inv (s.setWorker j pc.woken) := by
  obtain ⟨hrests, hwaits, hsignals⟩ := not_rests_woken ha
  have hmem := mem_set_self hj pc.woken
  refine ⟨h.flag, h.held.still (still_setWorker hj (woken_workerRank ha)), fun w pc' hw => ?_,
    fun hnil => ?_, fun _ => .inr ⟨_, hmem, hrests⟩, fun _ => .inr ⟨_, hmem, hwaits⟩, fun hw => ?_⟩
  · by_cases hwj : j = w
    · subst hwj
      obtain ⟨hlt, -⟩ := List.getElem?_eq_some_iff.mp hj
      simp only [State.setWorker, List.getElem?_set_self hlt, Option.some.injEq] at hw
      rw [← hw]
      cases pc <;> trivial
    · simp only [State.setWorker, List.getElem?_set_ne hwj] at hw
      exact h.serving w pc' hw
  · exact h.workers (by simpa [State.setWorker] using hnil)
  · exact (h.producers hw).imp_right (Or.imp_left (exists_mem_set hj (by simp [hsignals])))

/-- **After a signal to the workers one of them is awake.** -/
theorem Inv.signalR (h : Inv s) {i : ℕ} (hi : s.calls[i]? = some .signal) {wake : Option ℕ}
    (hs : s.signalR wake = some s₁) : Inv s₁ ∧ s₁.calls = s.calls ∧ s₁.q = s.q ∧
      ∃ pc ∈ s₁.workers, rests pc = false ∧ workerWaits pc = false := by
  rcases signalR_cases hs with ⟨rfl, hnone⟩ | ⟨j, pc, hj, ha, rfl⟩
  · refine ⟨h, rfl, rfl, ?_⟩
    obtain ⟨pc, pcs, hpcs⟩ := List.exists_cons_of_ne_nil h.workers
    have hpc : s₁.workers[0]? = some pc := by rw [hpcs]; rfl
    have hawake : pc.isAsleep = false := by
      rw [List.any_eq_false] at hnone
      simpa using hnone pc (List.mem_of_getElem? hpc)
    -- the signalling call has the lock, so no worker is in front of its wait
    have hout : workerHolds pc = false := by
      by_contra hp
      have hin : inside s₁ (.worker 0) = true := by simpa [inside, hpc] using hp
      have hcall : inside s₁ (.call i) = true := by simp [inside, hi, callHolds]
      cases h.held.locked.eq hin hcall
    refine ⟨pc, List.mem_of_getElem? hpc, ?_⟩
    exact not_rests_of_not_holds hawake hout
  · obtain ⟨hrests, hwaits, -⟩ := not_rests_woken ha
    exact ⟨h.wakeWorker hj ha, rfl, rfl, _, mem_set_self hj _, hrests, hwaits⟩

/-- **After a signal to the producers none waits, or one is on its way.** -/
theorem Inv.signalW (h : Inv s) {o : Owner} (ho : inside s o = true)
    (hwait : ∀ i : ℕ, o = .call i → ∀ pc, s.calls[i]? = some pc → callWaits pc = false)
    {wake : Option ℕ} (hs : s.signalW wake = some s₁) : Inv s₁ ∧ s₁.workers = s.workers ∧
      s₁.q = s.q ∧
      ((∀ pc ∈ s₁.calls, callWaits pc = false) ∨
        ∃ pc ∈ s₁.calls, pushes pc = true ∧ callHolds pc = false) := by
  rcases signalW_cases hs with ⟨rfl, hnone⟩ | ⟨j, pc, hj, ha, rfl⟩
  · refine ⟨h, rfl, rfl, .inl fun pc hpc => ?_⟩
    obtain ⟨i, hi⟩ := List.mem_iff_getElem?.mp hpc
    have hawake : pc.isAsleep = false := by
      rw [List.any_eq_false] at hnone
      simpa using hnone pc hpc
    by_contra hw
    have hholds := callHolds_of_waits (by simpa using hw) hawake
    have hin : inside s₁ (.call i) = true := by simpa [inside, hi] using hholds
    exact hw (hwait i (h.held.locked.eq ho hin) pc hi)
  · exact ⟨h.wakeCall hj ha, rfl, rfl,
      .inr ⟨_, mem_set_self hj _, pushes_woken ha, woken_callHolds ha⟩⟩

/-- The call has signalled the workers. -/
theorem Inv.signalled (h : Inv s) {i : ℕ} (hi : s.calls[i]? = some .signal)
    (hheld : Held (s.setCall i .unlock))
    (hawake : ∃ pc ∈ s.workers, rests pc = false ∧ workerWaits pc = false) :
    Inv (s.setCall i .unlock) := by
  obtain ⟨pc, hpc, hrests, hwaits⟩ := hawake
  refine ⟨h.flag, hheld, h.serving, h.workers, fun _ => .inr ⟨pc, hpc, hrests⟩,
    fun _ => .inr ⟨pc, hpc, hwaits⟩, ?_⟩
  rintro ⟨pc', hpc', hw⟩
  have hmem : pc' ∈ s.calls := by
    rcases List.mem_or_eq_of_mem_set hpc' with hmem | rfl
    · exact hmem
    · cases hw
  exact (h.producers ⟨pc', hmem, hw⟩).imp_right
    (Or.imp_right (exists_mem_set hi (by simp [pushes])))

/-- **A move of a call.** -/
theorem Inv.call (h : Inv s) {i : ℕ} {pc : CallPc} (hpc : s.calls[i]? = some pc)
    (ht : Turn s s' (.call i)) (he : CallEffect s i pc s') : Inv s' := by
  have hheld : Held s' := h.held.turn ht id
  cases he with
  | @own q m pc' hwork hsignal hqueue htimers hkept hwaits hpushes =>
    have hmem := mem_set_self hpc pc'
    have hsig : .signal ∈ s.calls → .signal ∈ s.calls.set i pc' :=
      fun hs => mem_set_of_ne hpc hs hsignal.symm _
    refine ⟨h.flag, hheld, fun w pcw hw => ?_, h.workers, fun hne => ?_, fun hne => ?_, ?_⟩
    · exact h.serving_others ht.queues hw (by simp)
    · rcases hqueue hne with hold | rfl
      · exact (h.queue hold).imp_left hsig
      · exact .inl hmem
    · rcases htimers hne with hold | rfl
      · exact (h.timers hold).imp_left hsig
      · exact .inl hmem
    · rintro ⟨pc₀, hpc₀, hw⟩
      by_cases hne : q.queue = []
      swap
      · exact .inl hne
      have hold : ∃ pc ∈ s.calls, callWaits pc = true := by
        rcases List.mem_or_eq_of_mem_set hpc₀ with hold | rfl
        · exact ⟨pc₀, hold, hw⟩
        · exact ⟨pc, List.mem_of_getElem? hpc, (hwaits hw).resolve_right (not_not.mpr hne)⟩
      rcases h.producers hold with hold | hold | hold
      · obtain rfl := (hkept hold).resolve_left (not_not.mpr hne)
        exact .inr (.inr ⟨_, hmem, rfl⟩)
      · exact .inr (.inl hold)
      · exact .inr (.inr (exists_mem_set hpc
          (fun hp => (hpushes hp).resolve_right (not_not.mpr hne)) hold))
  | @signal s₁ wake hsig hs =>
    subst hsig
    obtain ⟨h₁, hcalls, -, hawake⟩ := h.signalR hpc hs
    exact h₁.signalled (by rw [hcalls]; exact hpc) hheld hawake
  | @clearSignal s₁ wake hclear hs =>
    subst hclear
    have hin : inside s (.call i) = true := by simp [inside, hpc, callHolds]
    have hself : ∀ j : ℕ, Owner.call i = .call j → ∀ pc, s.calls[j]? = some pc →
        callWaits pc = false := by
      rintro j ⟨⟩ pc hj
      rw [hpc] at hj
      rw [← Option.some.inj hj]
      rfl
    obtain ⟨h₁, -, -, hnone⟩ := h.signalW hin hself hs
    have hpc₁ := signalW_calls hs hpc rfl
    refine ⟨h₁.flag, hheld, h₁.serving, h₁.workers, fun hq => ?_, fun hq => ?_, ?_⟩
    · exact (h₁.queue hq).imp_left fun hsig => mem_set_of_ne hpc₁ hsig (by simp) _
    · exact (h₁.timers hq).imp_left fun hsig => mem_set_of_ne hpc₁ hsig (by simp) _
    · rintro ⟨pc₀, hpc₀, hw⟩
      rcases hnone with hnone | ⟨pc₁, hmem, hp, hfree⟩
      · rcases List.mem_or_eq_of_mem_set hpc₀ with hold | rfl
        · rw [hnone pc₀ hold] at hw
          cases hw
        · cases hw
      · -- the producer that was woken is another one
        have hne : pc₁ ≠ .clearSignal := fun he => by
          rw [he] at hfree
          cases hfree
        exact .inr (.inr ⟨pc₁, mem_set_of_ne hpc₁ hmem hne _, hp⟩)

/-- **A move of a worker.** -/
theorem Inv.worker (h : Inv s) {w : ℕ} {pc : WorkerPc} (hpc : s.workers[w]? = some pc)
    (ht : Turn s s' (.worker w)) (he : WorkerEffect s w pc s') : Inv s' := by
  have hheld : Held s' := by
    refine h.held.turn ht ?_
    -- a worker that goes on to the queue has found a task there
    rintro ⟨hpc', hnil⟩
    rw [hpc, Option.some.injEq] at hpc'
    subst hpc'
    exact h.serving w _ hpc hnil
  cases he with
  | @own q m pc' hwork hsignal hqueue htimers hkept hrests hwaits hserving =>
    have hmem := mem_set_self hpc pc'
    obtain ⟨hlt, -⟩ := List.getElem?_eq_some_iff.mp hpc
    refine ⟨h.flag, hheld, fun v pcv hv => ?_, fun hnil => ?_, fun hne => ?_, fun hne => ?_,
      fun hw => ?_⟩
    · by_cases hwv : w = v
      · subst hwv
        simp only [State.setWorker, List.getElem?_set_self hlt, Option.some.injEq] at hv
        rw [← hv]
        exact hserving
      · simp only [State.setWorker, List.getElem?_set_ne hwv] at hv
        exact h.serving_others ht.queues hv fun he => hwv (Owner.worker.inj he).symm
    · exact h.workers (by simpa [State.setWorker] using hnil)
    · refine (h.queue (hqueue hne)).imp_right (exists_mem_set hpc fun hr => ?_)
      by_contra hr'
      have := (hrests (by simpa using hr')).resolve_right hne
      rw [hr] at this
      cases this
    · refine (h.timers (htimers hne)).imp_right (exists_mem_set hpc fun hr => ?_)
      by_contra hr'
      have := (hwaits (by simpa using hr')).resolve_right hne
      rw [hr] at this
      cases this
    · rcases h.producers hw with hold | hold | hold
      · exact (hkept hold).imp_right fun hs => .inl ⟨pc', hmem, hs⟩
      · exact .inr (.inl (exists_mem_set hpc (by simp [hsignal]) hold))
      · exact .inr (.inr hold)
  | @signal s₁ task wake hsig hs =>
    subst hsig
    have hin : inside s (.worker w) = true := by simp [inside, hpc, workerHolds]
    obtain ⟨h₁, hworkers, -, hnone⟩ := h.signalW hin (by simp) hs
    have hpc₁ : s₁.workers[w]? = some (.signal task) := by rw [hworkers]; exact hpc
    have hmem := mem_set_self hpc₁ (.unlockRun task)
    obtain ⟨hlt, -⟩ := List.getElem?_eq_some_iff.mp hpc₁
    refine ⟨h₁.flag, hheld, fun v pcv hv => ?_, fun hnil => ?_, fun _ => .inr ⟨_, hmem, rfl⟩,
      fun _ => .inr ⟨_, hmem, rfl⟩, ?_⟩
    · by_cases hwv : w = v
      · subst hwv
        simp only [State.setWorker, List.getElem?_set_self hlt, Option.some.injEq] at hv
        rw [← hv]
        trivial
      · simp only [State.setWorker, List.getElem?_set_ne hwv] at hv
        exact h₁.serving v pcv hv
    · exact h₁.workers (by simpa [State.setWorker] using hnil)
    · rintro ⟨pc₀, hpc₀, hw⟩
      rcases hnone with hnone | ⟨pc₁, hmem, hp, -⟩
      · rw [hnone pc₀ hpc₀] at hw
        cases hw
      · exact .inr (.inr ⟨pc₁, hmem, hp⟩)

/-- A new call. -/
theorem Inv.addCall (h : Inv s) {pc : CallPc} (hrank : callRank pc = 0)
    (hwaits : callWaits pc = false) : Inv { s with calls := s.calls ++ [pc] } := by
  refine ⟨h.flag, h.held.still (still_addCall s hrank), h.serving, h.workers,
    fun hq => (h.queue hq).imp_left (List.mem_append_left _),
    fun hq => (h.timers hq).imp_left (List.mem_append_left _), ?_⟩
  rintro ⟨pc₀, hpc₀, hw⟩
  rcases List.mem_append.mp hpc₀ with hold | hnew
  · rcases h.producers ⟨pc₀, hold, hw⟩ with hfull | hsig | ⟨pc₁, hmem, hp⟩
    · exact .inl hfull
    · exact .inr (.inl hsig)
    · exact .inr (.inr ⟨pc₁, List.mem_append_left _ hmem, hp⟩)
  · rw [List.mem_singleton.mp hnew, hwaits] at hw
    cases hw

end Keep

/-! ### The moves come to an end -/

section Work
variable {k : Kind} {s s₁ s' : State}

theorem sum_set {α : Type*} (f : α → ℕ) : ∀ {l : List α} {i : ℕ} {a : α} (b : α), l[i]? = some a →
    ((l.set i b).map f).sum + f a = (l.map f).sum + f b
  | [], _, _, _, h => by simp at h
  | x :: l, 0, a, b, h => by
    obtain rfl : x = a := by simpa using h
    simp only [List.set_cons_zero, List.map_cons, List.sum_cons]
    omega
  | x :: l, i + 1, a, b, h => by
    have ih := sum_set f (l := l) (i := i) b (by simpa using h)
    simp only [List.set_cons_succ, List.map_cons, List.sum_cons]
    omega

theorem work_signalR {wake : Option ℕ} (hs : s.signalR wake = some s₁) :
    (s₁.workers.map workerWork).sum ≤ (s.workers.map workerWork).sum + 8 ∧ s₁.calls = s.calls ∧
      s₁.q = s.q := by
  rcases signalR_cases hs with ⟨rfl, -⟩ | ⟨j, pc, hj, ha, rfl⟩
  · exact ⟨Nat.le_add_right _ _, rfl, rfl⟩
  · have hsum := sum_set workerWork pc.woken hj
    have hwork : workerWork pc.woken ≤ workerWork pc + 8 := by
      cases pc <;> simp_all [WorkerPc.woken, WorkerPc.isAsleep, workerWork]
    refine ⟨?_, rfl, rfl⟩
    simp only [State.setWorker]
    omega

theorem work_signalW {wake : Option ℕ} (hs : s.signalW wake = some s₁) :
    (s₁.calls.map callWork).sum ≤ (s.calls.map callWork).sum + 3 ∧ s₁.workers = s.workers ∧
      s₁.q = s.q := by
  rcases signalW_cases hs with ⟨rfl, -⟩ | ⟨j, pc, hj, ha, rfl⟩
  · exact ⟨Nat.le_add_right _ _, rfl, rfl⟩
  · have hsum := sum_set callWork pc.woken hj
    have hwork : callWork pc.woken ≤ callWork pc + 3 := by
      cases pc <;> simp_all [CallPc.woken, CallPc.isAsleep, callWork]
    refine ⟨?_, rfl, rfl⟩
    simp only [State.setCall]
    omega

theorem work_call {i : ℕ} {pc : CallPc} (hpc : s.calls[i]? = some pc)
    (he : CallEffect s i pc s') : work s' < work s := by
  unfold work
  cases he with
  | @own q m pc' hwork =>
    have hsum := sum_set callWork pc' hpc
    simp only [State.setCall]
    omega
  | @signal s₁ wake hsig hs =>
    subst hsig
    obtain ⟨hworkers, hcalls, hq⟩ := work_signalR hs
    have hsum := sum_set callWork .unlock (by rw [hcalls]; exact hpc : s₁.calls[i]? = _)
    simp only [callWork] at hsum
    simp only [State.setCall, hq, ← hcalls]
    omega
  | @clearSignal s₁ wake hclear hs =>
    subst hclear
    obtain ⟨hcalls, hworkers, hq⟩ := work_signalW hs
    have hsum := sum_set callWork .unlock (signalW_calls hs hpc rfl)
    simp only [callWork] at hsum
    simp only [State.setCall, hq, hworkers]
    omega

theorem work_worker {w : ℕ} {pc : WorkerPc} (hpc : s.workers[w]? = some pc)
    (he : WorkerEffect s w pc s') : work s' < work s := by
  unfold work
  cases he with
  | @own q m pc' hwork =>
    have hsum := sum_set workerWork pc' hpc
    simp only [State.setWorker]
    omega
  | @signal s₁ task wake hsig hs =>
    subst hsig
    obtain ⟨hcalls, hworkers, hq⟩ := work_signalW hs
    have hsum := sum_set workerWork (.unlockRun task)
      (by rw [hworkers]; exact hpc : s₁.workers[w]? = _)
    simp only [workerWork] at hsum
    simp only [State.setWorker, hq, ← hworkers]
    omega

/-- **A move keeps the invariant, and less is left to do.** -/
theorem Inv.move (hfull : 0 < k.full) (h : Inv s) {l : Label} (hl : isMove l = true)
    (hs : stepOption k s l = some s') : Inv s' ∧ work s' < work s := by
  cases l with
  | call i wake =>
    obtain ⟨pc, hpc, hs⟩ := Option.bind_eq_some_iff.mp hs
    have he := callStep_effect hfull h.flag hs
    exact ⟨h.call hpc (callStep_turn hpc hs) he, work_call hpc he⟩
  | worker w now i wake =>
    obtain ⟨pc, hpc, hs⟩ := Option.bind_eq_some_iff.mp hs
    have he := workerStep_effect h.flag (h.serving w pc hpc) hs
    exact ⟨h.worker hpc (workerStep_turn hpc hs) he, work_worker hpc he⟩
  | _ => cases hl

/-- **One step**, as long as nobody stops the queues. -/
theorem Inv.step (hfull : 0 < k.full) (h : Inv s) {l : Label} (hl : isStop l = false) :
    Inv (Machine.step k s l) := by
  unfold Machine.step
  rcases hs : stepOption k s l with _ | s'
  · exact h
  rw [Option.getD_some]
  cases l with
  | schedule task => exact Option.some.inj hs ▸ h.addCall rfl rfl
  | delaySchedule timeout now task => exact Option.some.inj hs ▸ h.addCall rfl rfl
  | queueClear =>
    cases k with
    | bg full => exact Option.some.inj hs ▸ h.addCall rfl rfl
    | pool workerNum => simp [stepOption] at hs
  | call i wake => exact (h.move hfull rfl hs).1
  | worker w now i wake => exact (h.move hfull rfl hs).1
  | stop wake => cases hl
  | timeout w =>
    dsimp only [stepOption] at hs
    split_ifs at hs with hw
    exact Option.some.inj hs ▸ h.wakeWorker hw rfl
  | wakeCall i =>
    have hs : s.signalW (some i) = some s' := hs
    rcases signalW_cases hs with ⟨rfl, -⟩ | ⟨j, pc, hj, ha, rfl⟩
    · exact h
    · exact h.wakeCall hj ha
  | wakeWorker w =>
    have hs : s.signalR (some w) = some s' := hs
    rcases signalR_cases hs with ⟨rfl, -⟩ | ⟨j, pc, hj, ha, rfl⟩
    · exact h
    · exact h.wakeWorker hj ha

theorem inv_start {k : Kind} (hworkers : 0 < k.workers) : Inv (start k) := by
  have htop : ∀ (w : ℕ) (pc : WorkerPc), (start k).workers[w]? = some pc → pc = .top := by
    intro w pc hw
    exact List.eq_of_mem_replicate (List.mem_of_getElem? hw)
  refine ⟨rfl, fun o => ?_, fun w pc hw => ?_, ?_, fun hne => absurd rfl hne,
    fun hne => absurd rfl hne, ?_⟩
  · have hout : inside (start k) o = false := by
      rcases o with i | w
      · rfl
      · rcases hw : (start k).workers[w]? with _ | pc
        · simp [inside, hw]
        · simp [inside, hw, htop w pc hw, workerHolds]
    rw [hout]
    simp [start]
  · rw [htop w pc hw]
    trivial
  · exact List.ne_nil_of_length_pos (by simpa [start] using hworkers)
  · rintro ⟨pc, hpc, -⟩
    exact absurd hpc List.not_mem_nil

end Work

/-! ### Somebody can move -/

section Progress
variable {k : Kind} {s : State}

theorem moves_call {i : ℕ} {pc : CallPc} (hpc : s.calls[i]? = some pc) (hdone : pc ≠ .done)
    (ha : pc.isAsleep = false) (hfree : callHolds pc = true ∨ s.holder = none) :
    ∃ l, Moves k s l := by
  obtain ⟨wake, hwake⟩ := call_moves (k := k) (i := i) hdone ha hfree
  exact ⟨.call i wake, rfl, by simpa [stepOption, hpc] using hwake⟩

theorem moves_worker (h : Inv s) {w : ℕ} {pc : WorkerPc} (hpc : s.workers[w]? = some pc)
    (ha : pc.isAsleep = false) (hfree : workerHolds pc = true ∨ s.holder = none) :
    ∃ l, Moves k s l := by
  have hexited : pc ≠ .exited := by
    rintro rfl
    exact h.serving w _ hpc
  obtain ⟨i, wake, hwake⟩ := worker_moves (k := k) (w := w) hexited ha hfree
  exact ⟨.worker w 0 i wake, rfl, by simpa [stepOption, hpc] using hwake⟩

/-- The thread with the lock can move. -/
theorem moves_of_holder (h : Inv s) {o : Owner} (ho : s.holder = some o) : ∃ l, Moves k s l := by
  have hin := (h.held o).mp ho
  rcases o with i | w
  · rcases hpc : s.calls[i]? with _ | pc
    · simp [inside, hpc] at hin
    · have hholds : callHolds pc = true := by simpa [inside, hpc] using hin
      exact moves_call hpc (by rintro rfl; cases hholds) (by
        by_contra ha
        rw [callHolds_of_asleep (by simpa using ha)] at hholds
        cases hholds) (.inl hholds)
  · rcases hpc : s.workers[w]? with _ | pc
    · simp [inside, hpc] at hin
    · have hholds : workerHolds pc = true := by simpa [inside, hpc] using hin
      exact moves_worker h hpc (by
        by_contra ha
        rw [workerHolds_of_asleep (by simpa using ha)] at hholds
        cases hholds) (.inl hholds)

theorem worker_asleep {pc : WorkerPc} (h : pc.isAsleep = true) :
    rests pc = true ∧ signals pc = false ∧ (workerWaits pc = false → pc = .timedAsleep) := by
  cases pc <;> simp_all [WorkerPc.isAsleep, rests, signals, workerWaits]

theorem call_asleep {pc : CallPc} (h : pc.isAsleep = true) :
    callWaits pc = true ∧ pushes pc = false := by
  cases pc <;> simp_all [CallPc.isAsleep, callWaits, pushes]

/-- **When nobody can move, nothing is left to do.** -/
theorem Inv.settled (h : Inv s) (hkept : Accounting.Kept s.q) (hrest : ¬ ∃ l, Moves k s l) :
    Settled s := by
  have hnone : s.holder = none := by
    by_contra hne
    obtain ⟨o, ho⟩ := Option.ne_none_iff_exists'.mp hne
    exact hrest (moves_of_holder h ho)
  have hworkers : ∀ pc ∈ s.workers, pc.isAsleep = true := by
    intro pc hpc
    obtain ⟨w, hw⟩ := List.mem_iff_getElem?.mp hpc
    by_contra ha
    exact hrest (moves_worker h hw (by simpa using ha) (.inr hnone))
  have hcalls : ∀ pc ∈ s.calls, pc = .done ∨ pc.isAsleep = true := by
    intro pc hpc
    obtain ⟨i, hi⟩ := List.mem_iff_getElem?.mp hpc
    by_contra hneither
    push Not at hneither
    exact hrest (moves_call hi hneither.1 (by simpa using hneither.2) (.inr hnone))
  have hsignal : .signal ∉ s.calls := fun hmem => by
    rcases hcalls _ hmem with hs | hs <;> cases hs
  have hqueue : s.q.queue = [] := by
    by_contra hne
    obtain ⟨pc, hpc, hr⟩ := (h.queue hne).resolve_left hsignal
    rw [(worker_asleep (hworkers pc hpc)).1] at hr
    cases hr
  refine ⟨fun pc hpc => (hcalls pc hpc).resolve_right fun ha => ?_, hworkers, hqueue, fun hne => ?_,
    ?_⟩
  · -- nobody would signal a producer that sleeps
    rcases h.producers ⟨pc, hpc, (call_asleep ha).1⟩ with hq | ⟨pc₁, hpc₁, hs⟩ | ⟨pc₁, hpc₁, hp⟩
    · exact hq hqueue
    · rw [(worker_asleep (hworkers pc₁ hpc₁)).2.1] at hs
      cases hs
    · rcases hcalls pc₁ hpc₁ with rfl | ha₁
      · cases hp
      · rw [(call_asleep ha₁).2] at hp
        cases hp
  · obtain ⟨pc, hpc, hw⟩ := (h.timers hne).resolve_left hsignal
    rw [← (worker_asleep (hworkers pc hpc)).2.2 hw]
    exact hpc
  · have horder := hkept.order
    rwa [hqueue, List.append_nil] at horder

end Progress

/-- **The threads settle.** As long as nobody stops the queues, from any point of a run the calls
and the workers can take at most `work` steps, whatever their order, and as long as a call has not
returned or a task is queued one of them can take a step. -/
theorem settles (k : Kind) (hfull : 0 < k.full) (hworkers : 0 < k.workers) (ls ms : List Label)
    (hls : ∀ l ∈ ls, isStop l = false)
    (hms : Guarded (step k) (Moves k) (run (step k) (start k) ls) ms) :
    ms.length ≤ work (run (step k) (start k) ls) ∧
      (Settled (run (step k) (start k) (ls ++ ms)) ∨
        ∃ l, Moves k (run (step k) (start k) (ls ++ ms)) l) := by
  have hstep : ∀ (s : State) (l : Label), Inv s → isStop l = false → Inv (step k s l) :=
    fun s l h hl => h.step hfull hl
  have hrun : Inv (run (step k) (start k) ls) :=
    run_inv_of_forall Inv hstep (inv_start hworkers) hls
  have hmove : ∀ (s : State) (l : Label), Inv s → Moves k s l →
      Inv (step k s l) ∧ work (step k s l) < work s := by
    intro s l h ⟨hl, hsome⟩
    obtain ⟨s', hs'⟩ := Option.isSome_iff_exists.mp hsome
    unfold step
    rw [hs', Option.getD_some]
    exact h.move hfull hl hs'
  have hend : Inv (run (step k) (start k) (ls ++ ms)) := by
    rw [run_append]
    exact run_inv Inv (fun s l h hl => (hmove s l h hl).1) hrun hms
  refine ⟨length_le_measure Inv work hmove hrun hms, ?_⟩
  by_cases hrest : ∃ l, Moves k (run (step k) (start k) (ls ++ ms)) l
  · exact .inr hrest
  · exact .inl (hend.settled (Accounting.run_kept k _) hrest)

/-- Two tasks for a queue with room for one. -/
def twoCalls : List Label := [.schedule ⟨1, 1⟩, .schedule ⟨2, 2⟩]

/-- The second call falls asleep, and the worker that takes the first task wakes it. -/
def wakeMoves : List Label :=
  List.replicate 5 (.call 0 none) ++ List.replicate 3 (.call 1 none) ++
    List.replicate 6 (.worker 0 0 0 none) ++ [.worker 0 0 0 (some 1), .worker 0 0 0 none] ++
    List.replicate 3 (.call 1 none)

theorem settles_wakeMoves :
    wakeMoves.length ≤ work (run (step (.bg 1)) (start (.bg 1)) twoCalls) ∧
      (Settled (run (step (.bg 1)) (start (.bg 1)) (twoCalls ++ wakeMoves)) ∨
        ∃ l, Moves (.bg 1) (run (step (.bg 1)) (start (.bg 1)) (twoCalls ++ wakeMoves)) l) :=
  settles (.bg 1) (by decide) (by decide) twoCalls wakeMoves (by decide) (by decide +kernel)

end Pink.Tasks.Settling
