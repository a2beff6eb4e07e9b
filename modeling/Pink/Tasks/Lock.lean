import Pink.Tasks.Machine

/-! # The lock of the task queues

At which places a thread holds `mu_`, and what a step does with the lock (`Turn`): only the thread
that moves takes it or gives it back, and a thread that has it comes closer to its `Unlock` with
every step. So never two threads are at places with the lock (`Locked`).

With one step a thread leaves such a place and keeps the lock (`Leaks`). `RunOnce` returns, and the
loop of `ThreadMain` goes on, without an `Unlock` when the queue is empty, the next delayed task is
not due, and `should_stop_` has been set since the thread has tested it. As long as nobody does
that, the lock is with the thread that is at such a place (`Held`). -/

namespace Pink.Tasks.Lock

open Pink.Lib.Runs Pink.Tasks.Machine

/-! ### Where a thread has the lock -/

/-- The call holds the lock here. -/
def callHolds : CallPc → Bool
  | .test _ | .wait _ | .push _ | .delayPush _ | .signal | .clear | .clearSignal | .unlock => true
  | _ => false

/-- The worker holds the lock here. -/
def workerHolds : WorkerPc → Bool
  | .test | .wait | .check | .leave | .serve | .timedWait | .timedUnlock | .serveQueue | .signal _ |
    .unlockRun _ | .swallow | .swallowUnlock _ | .timers _ | .timersUnlock _ _ => true
  | _ => false

/-- The thread is at a place where it holds the lock. -/
def inside (s : State) : Owner → Bool
  | .call i => s.calls[i]?.any callHolds
  | .worker w => s.workers[w]?.any workerHolds

/-- A thread that is at such a place has the lock. -/
def Locked (s : State) : Prop := ∀ o, inside s o = true → s.holder = some o

/-- The lock is with the thread that is at a place that has it, and with nobody else. -/
def Held (s : State) : Prop := ∀ o, s.holder = some o ↔ inside s o = true

/-- At most so many steps are left up to the `Unlock` of the call. -/
def callRank : CallPc → ℕ
  | .test _ => 4
  | .push _ | .delayPush _ | .clear => 3
  | .signal | .clearSignal => 2
  | .wait _ | .unlock => 1
  | _ => 0

def workerRank : WorkerPc → ℕ
  | .test => 6
  | .check => 5
  | .serve => 4
  | .serveQueue => 3
  | .signal _ | .swallow | .timers _ => 2
  | .wait | .leave | .timedWait | .timedUnlock | .unlockRun _ | .swallowUnlock _ |
    .timersUnlock _ _ => 1
  | .top | .lock | .asleep | .relock | .timedAsleep | .timedRelock | .run _ | .swallowLock |
    .swallowRun _ | .swallowNow | .timersLock _ | .timersRun _ _ | .exited => 0

def rank (s : State) : Owner → ℕ
  | .call i => (s.calls[i]?.map callRank).getD 0
  | .worker w => (s.workers[w]?.map workerRank).getD 0

/-- A thread goes from a place that has the lock if the first flag says so to one that has it if the
second one does. -/
def Takes (s : State) (o : Owner) : Bool → Bool → Option Owner → Prop
  | false, true, holder => s.holder = none ∧ holder = some o
  | true, false, holder => holder = none
  | _, _, holder => holder = s.holder

/-- The next step of the thread does not give the lock back. -/
def Leaks (s : State) : Owner → Prop
  | .call _ => False
  | .worker w => s.workers[w]? = some .serveQueue ∧ s.q.queue = []

/-- **A step of a thread.** -/
structure Turn (s s' : State) (o : Owner) : Prop where
  others : ∀ o', o' ≠ o → inside s' o' = inside s o'
  lock : Takes s o (inside s o) (inside s' o) s'.holder ∨
    Leaks s o ∧ inside s' o = false ∧ s'.holder = s.holder
  queues : s'.q = s.q ∨ inside s o = true
  closer : inside s o = true → rank s' o < rank s o

/-- No thread comes to a place with the lock or leaves one. -/
structure Still (s s' : State) : Prop where
  rank : ∀ o, rank s' o = rank s o
  holder : s'.holder = s.holder

section Turns
variable {k : Kind} {s s₁ s' : State} {o : Owner}

theorem callHolds_eq (pc : CallPc) : callHolds pc = decide (0 < callRank pc) := by
  cases pc <;> rfl

theorem workerHolds_eq (pc : WorkerPc) : workerHolds pc = decide (0 < workerRank pc) := by
  cases pc <;> rfl

theorem inside_eq (s : State) (o : Owner) : inside s o = decide (0 < rank s o) := by
  rcases o with i | w
  · rcases hi : s.calls[i]? with _ | pc
    · simp [inside, rank, hi]
    · simp [inside, rank, hi, callHolds_eq]
  · rcases hw : s.workers[w]? with _ | pc
    · simp [inside, rank, hw]
    · simp [inside, rank, hw, workerHolds_eq]

theorem Still.inside (h : Still s s') (o : Owner) : inside s' o = inside s o := by
  rw [inside_eq, inside_eq, h.rank]

/-! ### The lock through a step -/

theorem Locked.turn (h : Locked s) (ht : Turn s s' o) : Locked s' := by
  intro o' ho'
  have hlock := ht.lock
  by_cases he : o' = o
  · subst he
    rw [ho'] at hlock
    rcases hlock with hlock | ⟨-, hout, -⟩
    · cases hin : inside s o' with
      | false =>
        rw [hin] at hlock
        exact hlock.2
      | true =>
        rw [hin] at hlock
        exact Eq.trans hlock (h o' hin)
    · cases hout
  · rw [ht.others o' he] at ho'
    have hold := h o' ho'
    -- the thread that moves has not the lock
    have hin : inside s o = false := by
      by_contra hin
      have := h o (by simpa using hin)
      rw [hold, Option.some.injEq] at this
      exact he this
    rw [hin] at hlock
    rcases hlock with hlock | ⟨-, -, hsame⟩
    · cases hout : inside s' o with
      | false =>
        rw [hout] at hlock
        exact Eq.trans hlock hold
      | true =>
        rw [hout] at hlock
        rw [hlock.1] at hold
        cases hold
    · rw [hsame, hold]

/-- The lock is given back, unless the thread leaks it. -/
theorem Held.turn (h : Held s) (ht : Turn s s' o) (hleak : ¬Leaks s o) : Held s' := by
  have hlock := ht.lock.resolve_right fun hl => hleak hl.1
  intro o'
  cases hin : inside s o with
  | true =>
    have ho : s.holder = some o := (h o).mpr hin
    cases hout : inside s' o with
    | true =>
      rw [hin, hout] at hlock
      have hsame : s'.holder = s.holder := hlock
      by_cases he : o' = o
      · rw [he, hsame, ho, hout]
        simp
      · rw [hsame, ht.others o' he]
        exact h o'
    | false =>
      rw [hin, hout] at hlock
      have hnone : s'.holder = none := hlock
      by_cases he : o' = o
      · rw [he, hnone, hout]
        simp
      · rw [hnone, ht.others o' he, ← h o', ho]
        simp [Ne.symm he]
  | false =>
    cases hout : inside s' o with
    | true =>
      rw [hin, hout] at hlock
      obtain ⟨hfree, hholder⟩ : s.holder = none ∧ s'.holder = some o := hlock
      by_cases he : o' = o
      · rw [he, hholder, hout]
        simp
      · rw [hholder, ht.others o' he, ← h o', hfree]
        simp [Ne.symm he]
    | false =>
      rw [hin, hout] at hlock
      have hsame : s'.holder = s.holder := hlock
      by_cases he : o' = o
      · rw [he, hsame, hout, ← hin]
        exact h o
      · rw [hsame, ht.others o' he]
        exact h o'

theorem Locked.still (h : Locked s) (hs : Still s s') : Locked s' := by
  intro o ho
  rw [hs.inside] at ho
  rw [hs.holder]
  exact h o ho

theorem Held.still (h : Held s) (hs : Still s s') : Held s' := by
  intro o
  rw [hs.holder, hs.inside]
  exact h o

theorem Held.locked (h : Held s) : Locked s := fun o ho => (h o).mpr ho

/-- Two threads are not both at places with the lock. -/
theorem Locked.eq {o' : Owner} (h : Locked s) (ho : Lock.inside s o = true)
    (ho' : Lock.inside s o' = true) : o = o' :=
  Option.some.inj ((h o ho).symm.trans (h o' ho'))

/-! ### One thread moves -/

theorem rank_setCall {q : Queues} {m : Option Owner} {i : ℕ} {pc : CallPc} (pc' : CallPc)
    (hpc : s.calls[i]? = some pc) :
    rank (State.setCall { s with q, holder := m } i pc') (.call i) = callRank pc' ∧
      ∀ o, o ≠ .call i → rank (State.setCall { s with q, holder := m } i pc') o = rank s o := by
  obtain ⟨hlt, -⟩ := List.getElem?_eq_some_iff.mp hpc
  constructor
  · simp [rank, State.setCall, hlt]
  · rintro (j | w) hne
    · have hij : i ≠ j := fun he => hne (by rw [he])
      simp [rank, State.setCall, List.getElem?_set_ne hij]
    · rfl

theorem rank_setWorker {q : Queues} {m : Option Owner} {w : ℕ} {pc : WorkerPc}
    (pc' : WorkerPc) (hpc : s.workers[w]? = some pc) :
    rank (State.setWorker { s with q, holder := m } w pc') (.worker w) = workerRank pc' ∧
      ∀ o, o ≠ .worker w → rank (State.setWorker { s with q, holder := m } w pc') o = rank s o := by
  obtain ⟨hlt, -⟩ := List.getElem?_eq_some_iff.mp hpc
  constructor
  · simp [rank, State.setWorker, hlt]
  · rintro (i | v) hne
    · rfl
    · have hwv : w ≠ v := fun he => hne (by rw [he])
      simp [rank, State.setWorker, List.getElem?_set_ne hwv]

theorem still_setCall {i : ℕ} {pc pc' : CallPc} (hpc : s.calls[i]? = some pc)
    (hr : callRank pc' = callRank pc) : Still s (s.setCall i pc') := by
  refine ⟨fun o => ?_, rfl⟩
  obtain ⟨hself, hothers⟩ := rank_setCall (q := s.q) (m := s.holder) pc' hpc
  by_cases ho : o = .call i
  · subst ho
    rw [show rank s (.call i) = callRank pc by simp [rank, hpc], ← hr]
    exact hself
  · exact hothers o ho

theorem still_setWorker {w : ℕ} {pc pc' : WorkerPc} (hpc : s.workers[w]? = some pc)
    (hr : workerRank pc' = workerRank pc) : Still s (s.setWorker w pc') := by
  refine ⟨fun o => ?_, rfl⟩
  obtain ⟨hself, hothers⟩ := rank_setWorker (q := s.q) (m := s.holder) pc' hpc
  by_cases ho : o = .worker w
  · subst ho
    rw [show rank s (.worker w) = workerRank pc by simp [rank, hpc], ← hr]
    exact hself
  · exact hothers o ho

theorem turn_setCall {q : Queues} {m : Option Owner} {i : ℕ} {pc pc' : CallPc}
    (hpc : s.calls[i]? = some pc) (ht : Takes s (.call i) (callHolds pc) (callHolds pc') m)
    (hq : q = s.q ∨ callHolds pc = true) (hr : callHolds pc = true → callRank pc' < callRank pc) :
    Turn s (State.setCall { s with q, holder := m } i pc') (.call i) := by
  obtain ⟨hself, hothers⟩ := rank_setCall (q := q) (m := m) pc' hpc
  have hin : Lock.inside s (.call i) = callHolds pc := by simp [Lock.inside, hpc]
  have hrank : rank s (.call i) = callRank pc := by simp [rank, hpc]
  refine ⟨fun o ho => ?_, .inl ?_, hin ▸ hq, fun h => ?_⟩
  · rw [inside_eq, inside_eq, hothers o ho]
  · rw [hin, inside_eq (State.setCall _ _ _), hself, ← callHolds_eq]
    exact ht
  · rw [hself, hrank]
    exact hr (hin ▸ h)

theorem turn_setWorker {q : Queues} {m : Option Owner} {w : ℕ} {pc pc' : WorkerPc}
    (hpc : s.workers[w]? = some pc)
    (ht : Takes s (.worker w) (workerHolds pc) (workerHolds pc') m ∨
      Leaks s (.worker w) ∧ workerHolds pc' = false ∧ m = s.holder)
    (hq : q = s.q ∨ workerHolds pc = true)
    (hr : workerHolds pc = true → workerRank pc' < workerRank pc) :
    Turn s (State.setWorker { s with q, holder := m } w pc') (.worker w) := by
  obtain ⟨hself, hothers⟩ := rank_setWorker (q := q) (m := m) pc' hpc
  have hin : Lock.inside s (.worker w) = workerHolds pc := by simp [Lock.inside, hpc]
  have hrank : rank s (.worker w) = workerRank pc := by simp [rank, hpc]
  refine ⟨fun o ho => ?_, ?_, hin ▸ hq, fun h => ?_⟩
  · rw [inside_eq, inside_eq, hothers o ho]
  · rw [hin, inside_eq (State.setWorker _ _ _), hself, ← workerHolds_eq]
    exact ht
  · rw [hself, hrank]
    exact hr (hin ▸ h)

/-- A step with a signal in front of it. -/
theorem Turn.after (h : Still s s₁) (hq : s₁.q = s.q) (hleak : ¬Leaks s₁ o) (ht : Turn s₁ s' o) :
    Turn s s' o := by
  refine ⟨fun o' ho' => ?_, .inl ?_, ?_, fun hin => ?_⟩
  · rw [ht.others o' ho', h.inside]
  · have hlock := ht.lock.resolve_right fun hl => hleak hl.1
    rw [h.inside] at hlock
    unfold Takes at hlock ⊢
    rwa [h.holder] at hlock
  · rw [← hq, ← h.inside]
    exact ht.queues
  · rw [← h.rank o]
    exact ht.closer (by rwa [h.inside])

/-! ### Signals -/

theorem woken_callRank {pc : CallPc} (h : pc.isAsleep = true) :
    callRank pc.woken = callRank pc := by
  cases pc <;> simp_all [CallPc.isAsleep, CallPc.woken, callRank]

theorem woken_workerRank {pc : WorkerPc} (h : pc.isAsleep = true) :
    workerRank pc.woken = workerRank pc := by
  cases pc <;> simp_all [WorkerPc.isAsleep, WorkerPc.woken, workerRank]

theorem woken_callHolds {pc : CallPc} (h : pc.isAsleep = true) : callHolds pc.woken = false := by
  cases pc <;> simp_all [CallPc.isAsleep, CallPc.woken, callHolds]

theorem still_signalW {wake : Option ℕ} (hs : s.signalW wake = some s') :
    Still s s' ∧ s'.q = s.q ∧ s'.workers = s.workers := by
  rcases signalW_cases hs with ⟨rfl, -⟩ | ⟨j, pc, hj, ha, rfl⟩
  · exact ⟨⟨fun _ => rfl, rfl⟩, rfl, rfl⟩
  · exact ⟨still_setCall hj (woken_callRank ha), rfl, rfl⟩

theorem still_signalR {wake : Option ℕ} (hs : s.signalR wake = some s') :
    Still s s' ∧ s'.q = s.q ∧ s'.calls = s.calls := by
  rcases signalR_cases hs with ⟨rfl, -⟩ | ⟨j, pc, hj, ha, rfl⟩
  · exact ⟨⟨fun _ => rfl, rfl⟩, rfl, rfl⟩
  · exact ⟨still_setWorker hj (woken_workerRank ha), rfl, rfl⟩

/-- A signal moves only those who are asleep. -/
theorem signalW_calls {wake : Option ℕ} (hs : s.signalW wake = some s₁) {i : ℕ} {pc : CallPc}
    (hi : s.calls[i]? = some pc) (ha : pc.isAsleep = false) : s₁.calls[i]? = some pc := by
  rcases signalW_cases hs with ⟨rfl, -⟩ | ⟨j, pc', hj, ha', rfl⟩
  · exact hi
  · have hji : j ≠ i := by
      rintro rfl
      rw [hj, Option.some.injEq] at hi
      rw [hi, ha] at ha'
      cases ha'
    simp only [State.setCall, List.getElem?_set_ne hji]
    exact hi

theorem still_signalAllW (s : State) : Still s s.signalAllW := by
  refine ⟨fun o => ?_, rfl⟩
  rcases o with i | w
  · simp only [rank, State.signalAllW, List.getElem?_map, Option.map_map]
    rcases s.calls[i]? with _ | pc
    · rfl
    · cases ha : pc.isAsleep with
      | true => simp [woken_callRank ha]
      | false => cases pc <;> simp_all [CallPc.isAsleep, CallPc.woken]
  · rfl

theorem still_signalAllR (s : State) : Still s s.signalAllR := by
  refine ⟨fun o => ?_, rfl⟩
  rcases o with i | w
  · rfl
  · simp only [rank, State.signalAllR, List.getElem?_map, Option.map_map]
    rcases s.workers[w]? with _ | pc
    · rfl
    · cases ha : pc.isAsleep with
      | true => simp [woken_workerRank ha]
      | false => cases pc <;> simp_all [WorkerPc.isAsleep, WorkerPc.woken]

end Turns

/-! ### What the steps do -/

section Steps
variable {k : Kind} {s s' : State}

/-- **A step of a call.** -/
theorem callStep_turn {i : ℕ} {wake : Option ℕ} {pc : CallPc} (hpc : s.calls[i]? = some pc)
    (h : callStep k s i wake pc = some s') : Turn s s' (.call i) := by
  have hcall : ∀ s₁ : State, ¬Leaks s₁ (.call i) := fun _ h => h
  cases pc with
  | lock task | relock task | delayLock item | clearLock =>
    obtain ⟨s₁, h1, rfl⟩ := Option.map_eq_some_iff.mp h
    obtain ⟨hfree, rfl⟩ := lock_eq h1
    have ht : Takes s (.call i) false true (some (.call i)) := ⟨hfree, rfl⟩
    exact turn_setCall (q := s.q) hpc ht (.inl rfl) (by simp [callHolds])
  | asleep task | done => simp [callStep] at h
  | test task =>
    obtain rfl := Option.some.inj h
    split_ifs
    · exact turn_setCall (q := s.q) (m := s.holder) hpc rfl (.inl rfl) (by simp [callRank])
    · exact turn_setCall (q := s.q) (m := s.holder) hpc rfl (.inl rfl) (by simp [callRank])
  | push task | delayPush item =>
    obtain rfl := Option.some.inj h
    split_ifs
    · exact turn_setCall (q := s.q) (m := s.holder) hpc rfl (.inl rfl) (by simp [callRank])
    · exact turn_setCall (m := s.holder) hpc rfl (.inr rfl) (by simp [callRank])
  | clear =>
    obtain rfl := Option.some.inj h
    exact turn_setCall (m := s.holder) hpc rfl (.inr rfl) (by simp [callRank])
  | wait task | unlock =>
    obtain rfl := Option.some.inj h
    exact turn_setCall (q := s.q) hpc rfl (.inl rfl) (by simp [callRank])
  | signal =>
    obtain ⟨s₁, h1, rfl⟩ := Option.map_eq_some_iff.mp h
    obtain ⟨hstill, hq, hcalls⟩ := still_signalR h1
    have hpc₁ : s₁.calls[i]? = some .signal := by rw [hcalls]; exact hpc
    exact .after hstill hq (hcall s₁) (turn_setCall (q := s₁.q) (m := s₁.holder) hpc₁ rfl
      (.inl rfl) (by simp [callRank]))
  | clearSignal =>
    obtain ⟨s₁, h1, rfl⟩ := Option.map_eq_some_iff.mp h
    obtain ⟨hstill, hq, -⟩ := still_signalW h1
    have hpc₁ := signalW_calls h1 hpc rfl
    exact .after hstill hq (hcall s₁) (turn_setCall (q := s₁.q) (m := s₁.holder) hpc₁ rfl
      (.inl rfl) (by simp [callRank]))

/-- **A step of a worker.** -/
theorem workerStep_turn {w : ℕ} {now : UInt64} {i : ℕ} {wake : Option ℕ} {pc : WorkerPc}
    (hpc : s.workers[w]? = some pc) (h : workerStep k s w now i wake pc = some s') :
    Turn s s' (.worker w) := by
  -- the queues are left alone, or the worker has the lock
  have hgo : ∀ {holder pc'}, some (State.setWorker { s with holder } w pc') = some s' →
      Takes s (.worker w) (workerHolds pc) (workerHolds pc') holder →
      (workerHolds pc = true → workerRank pc' < workerRank pc) → Turn s s' (.worker w) := by
    rintro holder pc' h ht hr
    exact Option.some.inj h ▸ turn_setWorker (q := s.q) hpc (.inl ht) (.inl rfl) hr
  have htake : ∀ {q pc'}, some (State.setWorker { s with q } w pc') = some s' →
      workerHolds pc = true → workerHolds pc' = true → workerRank pc' < workerRank pc →
      Turn s s' (.worker w) := by
    rintro q pc' h hin hin' hr
    have ht : Takes s (.worker w) (workerHolds pc) (workerHolds pc') s.holder := by
      rw [hin, hin']
      rfl
    exact Option.some.inj h ▸ turn_setWorker hpc (.inl ht) (.inr hin) fun _ => hr
  cases pc with
  | lock | relock | timedRelock | swallowLock | timersLock =>
    obtain ⟨s₁, h1, rfl⟩ := Option.map_eq_some_iff.mp h
    obtain ⟨hfree, rfl⟩ := lock_eq h1
    have ht : Takes s (.worker w) false true (some (.worker w)) := ⟨hfree, rfl⟩
    exact turn_setWorker (q := s.q) hpc (.inl ht) (.inl rfl) (by simp [workerHolds])
  | asleep | timedAsleep | exited => simp [workerStep] at h
  | top =>
    dsimp only [workerStep] at h
    split_ifs at h
    · cases k <;> exact hgo h rfl (by simp [workerHolds])
    · exact hgo h rfl (by simp [workerHolds])
  | test =>
    dsimp only [workerStep] at h
    split_ifs at h
    · exact hgo h rfl (by simp [workerRank])
    · exact hgo h rfl (by simp [workerRank])
  | check =>
    dsimp only [workerStep] at h
    split_ifs at h
    · exact hgo h rfl (by simp [workerRank])
    · exact hgo h rfl (by simp [workerRank])
  | leave =>
    cases k <;> exact hgo h rfl (by simp [workerRank, Kind.afterStop])
  | wait | timedWait | timedUnlock | unlockRun | swallowUnlock | timersUnlock =>
    exact hgo h rfl (by simp [workerRank])
  | run | swallowRun | swallowNow | timersRun => exact hgo h rfl (by simp [workerHolds])
  | serve =>
    dsimp only [workerStep] at h
    by_cases h0 : s.q.timerQueue = []
    · rw [if_pos h0] at h
      exact hgo h rfl (by simp [workerRank])
    · rw [if_neg h0] at h
      obtain ⟨item, -, he⟩ := Option.map_eq_some_iff.mp h
      split_ifs at he
      · exact htake (congrArg some he) rfl rfl (by simp [workerRank])
      · exact hgo (congrArg some he) rfl (by simp [workerRank])
      · exact hgo (congrArg some he) rfl (by simp [workerRank])
  | serveQueue =>
    dsimp only [workerStep] at h
    split at h
    case _ hq =>
      -- the lock is kept
      exact Option.some.inj h ▸ turn_setWorker (q := s.q) (m := s.holder) hpc
        (.inr ⟨⟨hpc, hq⟩, rfl, rfl⟩) (.inl rfl) (by simp [workerRank])
    case _ task rest _ => exact htake h rfl rfl (by simp [workerRank])
  | signal task =>
    obtain ⟨s₁, h1, rfl⟩ := Option.map_eq_some_iff.mp h
    obtain ⟨hstill, hq, hworkers⟩ := still_signalW h1
    have hpc₁ : s₁.workers[w]? = some (.signal task) := by rw [hworkers]; exact hpc
    refine .after hstill hq (fun hl => ?_) (turn_setWorker (q := s₁.q) (m := s₁.holder) hpc₁
      (.inl rfl) (.inl rfl) (by simp [workerRank]))
    have := hl.1
    rw [hpc₁] at this
    cases this
  | swallow =>
    dsimp only [workerStep] at h
    split at h
    · exact hgo h rfl (by simp [workerRank])
    case _ task rest _ => exact htake h rfl rfl (by simp [workerRank])
  | timers unow =>
    dsimp only [workerStep] at h
    by_cases h0 : s.q.timerQueue = []
    · rw [if_pos h0] at h
      exact hgo h rfl (by simp [workerRank])
    · rw [if_neg h0] at h
      obtain ⟨item, -, he⟩ := Option.map_eq_some_iff.mp h
      split_ifs at he
      · exact hgo (congrArg some he) rfl (by simp [workerRank])
      · exact htake (congrArg some he) rfl rfl (by simp [workerRank])

/-- The thread that stops has nothing to do with the lock. -/
theorem stopStep_still {wake : Option ℕ} (h : stopStep k s wake = some s') : Still s s' := by
  have hsame : ∀ {s₁ : State} (b : Bool) (p : StopperPc), Still s s₁ →
      Still s { s₁ with shouldStop := b, stopper := p } :=
    fun b p hs => ⟨fun o => by
      rcases o with i | w
      · exact hs.rank (.call i)
      · exact hs.rank (.worker w), hs.holder⟩
  have hself : Still s s := ⟨fun _ => rfl, rfl⟩
  unfold stopStep at h
  split at h
  · exact Option.some.inj h ▸ hsame true .signalR hself
  · obtain ⟨s₁, h1, rfl⟩ := Option.map_eq_some_iff.mp h
    cases k with
    | bg full => exact hsame s₁.shouldStop .signalW (still_signalR h1).1
    | pool workerNum =>
      exact hsame s₁.shouldStop .signalW (Option.some.inj h1 ▸ still_signalAllR s)
  · obtain ⟨s₁, h1, rfl⟩ := Option.map_eq_some_iff.mp h
    cases k with
    | bg full => exact hsame s₁.shouldStop .joining (still_signalW h1).1
    | pool workerNum =>
      exact hsame s₁.shouldStop .joining (Option.some.inj h1 ▸ still_signalAllW s)
  · split_ifs at h
    exact Option.some.inj h ▸ hsame s.shouldStop .joined hself
  · simp at h

/-- A call that begins has not the lock. -/
theorem still_addCall (s : State) {pc : CallPc} (hpc : callRank pc = 0) :
    Still s { s with calls := s.calls ++ [pc] } := by
  refine ⟨fun o => ?_, rfl⟩
  rcases o with i | w
  · simp only [rank, List.getElem?_append, List.getElem?_singleton]
    split_ifs with hi h0
    · rfl
    · rw [List.getElem?_eq_none (not_lt.mp hi)]
      simpa using hpc
    · rw [List.getElem?_eq_none (not_lt.mp hi)]
  · rfl

/-- The thread whose step this is. -/
def mover : Label → Option Owner
  | .call i _ => some (.call i)
  | .worker w _ _ _ => some (.worker w)
  | _ => none

/-- **A step of a thread.** -/
theorem stepOption_turn {l : Label} {o : Owner} (hl : mover l = some o)
    (h : stepOption k s l = some s') : Turn s s' o := by
  cases l with
  | call i wake =>
    obtain rfl := Option.some.inj hl
    obtain ⟨pc, hpc, h⟩ := Option.bind_eq_some_iff.mp h
    exact callStep_turn hpc h
  | worker w now i wake =>
    obtain rfl := Option.some.inj hl
    obtain ⟨pc, hpc, h⟩ := Option.bind_eq_some_iff.mp h
    exact workerStep_turn hpc h
  | _ => cases hl

/-- **Every other step.** -/
theorem stepOption_still {l : Label} (hl : mover l = none) (h : stepOption k s l = some s') :
    Still s s' := by
  cases l with
  | schedule task => exact Option.some.inj h ▸ still_addCall s rfl
  | delaySchedule timeout now task => exact Option.some.inj h ▸ still_addCall s rfl
  | queueClear =>
    cases k with
    | bg full => exact Option.some.inj h ▸ still_addCall s rfl
    | pool workerNum => simp [stepOption] at h
  | stop wake => exact stopStep_still h
  | timeout w =>
    dsimp only [stepOption] at h
    split_ifs at h with hw
    exact Option.some.inj h ▸ still_setWorker hw rfl
  | wakeCall i =>
    have hs : s.signalW (some i) = some s' := h
    exact (still_signalW hs).1
  | wakeWorker w =>
    have hs : s.signalR (some w) = some s' := h
    exact (still_signalR hs).1
  | _ => cases hl

/-- **Every step keeps the lock.** -/
theorem stepOption_locked {l : Label} (hl : Locked s) (h : stepOption k s l = some s') :
    Locked s' := by
  rcases hm : mover l with _ | o
  · exact hl.still (stepOption_still hm h)
  · exact hl.turn (stepOption_turn hm h)

end Steps

/-! ### Who can go on -/

section Progress
variable {k : Kind} {s : State}

theorem exists_signalR (s : State) : ∃ wake, (s.signalR wake).isSome = true := by
  by_cases hany : s.workers.any WorkerPc.isAsleep = true
  · obtain ⟨pc, hpc, ha⟩ := List.any_eq_true.mp hany
    obtain ⟨w, hw⟩ := List.mem_iff_getElem?.mp hpc
    exact ⟨some w, by simp [State.signalR, hw, ha]⟩
  · exact ⟨none, by simp only [State.signalR, if_neg hany, Option.isSome_some]⟩

theorem exists_signalW (s : State) : ∃ wake, (s.signalW wake).isSome = true := by
  by_cases hany : s.calls.any CallPc.isAsleep = true
  · obtain ⟨pc, hpc, ha⟩ := List.any_eq_true.mp hany
    obtain ⟨i, hi⟩ := List.mem_iff_getElem?.mp hpc
    exact ⟨some i, by simp [State.signalW, hi, ha]⟩
  · exact ⟨none, by simp only [State.signalW, if_neg hany, Option.isSome_some]⟩

/-- Some item is on top of a queue that is not empty. -/
theorem exists_top {q : Queues} (h : q.timerQueue ≠ []) : ∃ i item, q.top i = some item := by
  obtain ⟨item, hitem⟩ := Option.ne_none_iff_exists'.mp
    (mt (List.argmin_eq_none (f := fun x : TimerItem => x.execTime.toNat)).mp h)
  obtain ⟨i, hi⟩ := List.mem_iff_getElem?.mp (List.argmin_mem hitem)
  refine ⟨i, item, Option.filter_eq_some_iff.mpr ⟨hi, ?_⟩⟩
  rw [List.all_eq_true]
  intro x hx
  have hle := List.le_of_mem_argmin hx hitem
  simpa [UInt64.le_iff_toNat_le] using hle

/-- A call that is not asleep can move when it has the lock, or the lock is free. -/
theorem call_moves {i : ℕ} {pc : CallPc} (hdone : pc ≠ .done) (ha : pc.isAsleep = false)
    (hfree : callHolds pc = true ∨ s.holder = none) :
    ∃ wake, (callStep k s i wake pc).isSome = true := by
  cases pc with
  | lock task | relock task | delayLock item | clearLock =>
    have hnone : s.holder = none := hfree.resolve_left (by simp [callHolds])
    exact ⟨none, by simp [callStep, State.lock, hnone]⟩
  | asleep task => cases ha
  | done => exact absurd rfl hdone
  | signal =>
    obtain ⟨wake, hwake⟩ := exists_signalR s
    exact ⟨wake, by simpa [callStep] using hwake⟩
  | clearSignal =>
    obtain ⟨wake, hwake⟩ := exists_signalW s
    exact ⟨wake, by simpa [callStep] using hwake⟩
  | test task | wait task | push task | delayPush item | clear | unlock => exact ⟨none, rfl⟩

/-- A worker that is not asleep can move when it has the lock, or the lock is free. -/
theorem worker_moves {w : ℕ} {pc : WorkerPc} (hexited : pc ≠ .exited) (ha : pc.isAsleep = false)
    (hfree : workerHolds pc = true ∨ s.holder = none) :
    ∃ i wake, (workerStep k s w 0 i wake pc).isSome = true := by
  cases pc with
  | lock | relock | timedRelock | swallowLock | timersLock =>
    have hnone : s.holder = none := hfree.resolve_left (by simp [workerHolds])
    exact ⟨0, none, by simp [workerStep, State.lock, hnone]⟩
  | asleep | timedAsleep => cases ha
  | exited => exact absurd rfl hexited
  | serve | timers =>
    by_cases h0 : s.q.timerQueue = []
    · exact ⟨0, none, by simp [workerStep, h0]⟩
    · obtain ⟨i, item, htop⟩ := exists_top h0
      exact ⟨i, none, by simp [workerStep, h0, htop]⟩
  | serveQueue | swallow =>
    rcases hq : s.q.queue with _ | ⟨task, rest⟩
    · exact ⟨0, none, by simp [workerStep, hq]⟩
    · exact ⟨0, none, by simp [workerStep, hq]⟩
  | signal task =>
    obtain ⟨wake, hwake⟩ := exists_signalW s
    exact ⟨0, wake, by simpa [workerStep] using hwake⟩
  | top | test | wait | check | leave | timedWait | timedUnlock | unlockRun | run |
    swallowUnlock | swallowRun | swallowNow | timersUnlock | timersRun => exact ⟨0, none, rfl⟩

theorem callHolds_of_asleep {pc : CallPc} (h : pc.isAsleep = true) : callHolds pc = false := by
  cases pc <;> first | rfl | cases h

theorem workerHolds_of_asleep {pc : WorkerPc} (h : pc.isAsleep = true) :
    workerHolds pc = false := by
  cases pc <;> first | rfl | cases h

/-- **The thread with the lock can go on.** -/
theorem inside_moves {o : Owner} (ho : inside s o = true) :
    ∃ l s', mover l = some o ∧ stepOption k s l = some s' := by
  rcases o with i | w
  · rcases hpc : s.calls[i]? with _ | pc
    · simp [inside, hpc] at ho
    have hholds : callHolds pc = true := by simpa [inside, hpc] using ho
    have ha : pc.isAsleep = false := by
      by_contra ha
      rw [callHolds_of_asleep (by simpa using ha)] at hholds
      cases hholds
    obtain ⟨wake, hwake⟩ := call_moves (k := k) (s := s) (i := i)
      (by rintro rfl; cases hholds) ha (.inl hholds)
    obtain ⟨s', hs⟩ := Option.isSome_iff_exists.mp hwake
    exact ⟨.call i wake, s', rfl, by simpa [stepOption, hpc] using hs⟩
  · rcases hpc : s.workers[w]? with _ | pc
    · simp [inside, hpc] at ho
    have hholds : workerHolds pc = true := by simpa [inside, hpc] using ho
    have ha : pc.isAsleep = false := by
      by_contra ha
      rw [workerHolds_of_asleep (by simpa using ha)] at hholds
      cases hholds
    obtain ⟨i, wake, hwake⟩ := worker_moves (k := k) (s := s) (w := w)
      (by rintro rfl; cases hholds) ha (.inl hholds)
    obtain ⟨s', hs⟩ := Option.isSome_iff_exists.mp hwake
    exact ⟨.worker w 0 i wake, s', rfl, by simpa [stepOption, hpc] using hs⟩

end Progress

end Pink.Tasks.Lock
