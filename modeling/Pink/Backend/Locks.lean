import Pink.Lib.Mutex
import Pink.Backend.Messages

/-! # The mutex of the backend

`mu_` is a `slash::Mutex`, which is not recursive. For every function that takes it there is the
sequence of what it does to `mu_`, put together along its calls, and `locks` says which of them a
step of the machine is.

A notification to close is processed with `mu_` held, and `CloseFd` locks it again in
`CleanUpConnRemaining`. Every other step is bracketed, so that a run goes through exactly if no such
notification is processed (`unblocked_iff`); then no interleaving of the threads gets stuck
(`work_progress`, `work_completes`). With one, the event loop stops while it holds `mu_`
(`close_frozen`). -/

namespace Pink.Backend.Locks

open Pink.Redis.Wire Pink.Lib.Runs Pink.Lib.Mutex Pink.Server.Conns Pink.Backend.Thread

/-- What is done to `mu_`. -/
abbrev Trace := List Pink.Lib.Mutex.Op

/-! ### The functions -/

def cleanUpConnRemaining : Trace := inScope []

/-- Both forms of `CloseFd`. -/
def closeFd : Trace := cleanUpConnRemaining

/-- `Write` up to its notification; all its exits are inside the scope or behind it. -/
def write : Trace := inScope []

def close : Trace := inScope []

def addConnection : Trace := inScope []

def getConn : Trace := inScope []

def doCronTask : Trace := inScope []

/-- One item in `ProcessNotifyEvents`. -/
def processNotifyEvents : Notify → Trace
  | .write _ => inScope []
  | .close _ => inScope closeFd

/-- `mu_.Lock()` and `mu_.Unlock()` around the `find` of `ThreadMain`, on both of its paths. -/
def findConn : Trace := [.lock, .unlock]

/-- The lines of `ThreadMain` around `conns_.erase`. -/
def eraseConn : Trace := [.lock, .unlock]

/-! ### The steps -/

/-- A step of the machine, or a call of `GetConn`, which only reads. -/
inductive Call
  | step (op : BackendThread.Op)
  | getConn (fd : ℤ)
  deriving DecidableEq, Repr

def step (s : BackendThread) : Call → BackendThread
  | .step op => s.step op
  | .getConn _ => s

/-- What the thread that takes a step does to `mu_`. -/
def stepLocks (s : BackendThread) : BackendThread.Op → Trace
  | .write _ _ _ => write
  | .close _ => close
  | .notify _ | .socket _ | .connectFailed _ => []
  | .cleanUp fd => if fd ∈ s.failing then cleanUpConnRemaining else []
  | .addConnection fd _ _ _ => if fd ∈ s.opening then addConnection else []
  | .processNotify =>
    match s.pc, s.pipe with
    | .idle, n :: _ => processNotifyEvents n
    | _, _ => []
  | .connEvent _ _ _ _ _ => if s.pc = .idle then findConn else []
  | .advance =>
    match s.pc with
    | .idle | .closing _ _ => []
    | .closed _ _ => closeFd
    | .cleaned _ _ => eraseConn
  | .cron _ => if s.pc = .idle then doCronTask else []

def locks (s : BackendThread) : Call → Trace
  | .getConn _ => getConn
  | .step op => if s.halted ≠ none then [] else stepLocks s op

/-- The step does not lock `mu_` while its thread holds it, and goes through. -/
def Unblocked (s : BackendThread) (c : Call) : Prop :=
  Bracketed (locks s c) ∧ (step s c).halted ≠ some .deadlock

/-- The step is not the processing of a notification to close. -/
def NotClosing (s : BackendThread) : Call → Prop
  | .step .processNotify => s.halted = none → s.pc = .idle → ∀ fd, s.pipe.head? ≠ some (.close fd)
  | _ => True

section Steps
variable {s : BackendThread}

theorem halted_write (fd : ℤ) (msg : Bytes) (access : Bool) :
    (s.write fd msg access).1.halted = s.halted := by
  unfold BackendThread.write
  split
  · rfl
  · dsimp only
    split_ifs <;> rfl

theorem halted_close (fd : ℤ) : (s.close fd).1.halted = s.halted := by
  unfold BackendThread.close
  split <;> rfl

theorem halted_connEvent (fd : ℤ) (mask : Server.Threads.Mask) (o : Server.Threads.Outcome)
    (connectError : Bool) (now : ℤ) :
    (s.connEvent fd mask o connectError now).halted = s.halted := by
  unfold BackendThread.connEvent
  split <;> rfl

theorem halted_advance : s.advance.halted = s.halted := by
  unfold BackendThread.advance
  split <;> rfl

theorem halted_doCronTask (h : s.halted = none) (now : ℤ) :
    (s.doCronTask now).halted ≠ some .deadlock := by
  unfold BackendThread.doCronTask
  split
  · simp [h]
  · simp

theorem halted_write_item (fd : ℤ) : (s.processNotify (.write fd)).halted = s.halted := by
  dsimp only [BackendThread.processNotify]
  split <;> rfl

theorem bracketed_ite {t : Trace} (h : Bracketed t) (p : Prop) [Decidable p] :
    Bracketed (if p then t else []) := by
  split_ifs
  · exact h
  · exact bracketed_nil

/-- The sequence of a step is bracketed, but for that of a notification to close. -/
theorem bracketed_stepLocks_iff (hh : s.halted = none) (op : BackendThread.Op) :
    Bracketed (stepLocks s op) ↔ NotClosing s (.step op) := by
  have hscope : Bracketed (inScope []) := bracketed_inScope_nil
  cases op with
  | write | close => exact iff_of_true hscope trivial
  | notify | socket | connectFailed => exact iff_of_true bracketed_nil trivial
  | cleanUp | addConnection | connEvent | cron => exact iff_of_true (bracketed_ite hscope _) trivial
  | advance =>
    refine iff_of_true ?_ trivial
    dsimp only [stepLocks]
    split
    · exact bracketed_nil
    · exact bracketed_nil
    · exact hscope
    · exact hscope
  | processNotify =>
    dsimp only [stepLocks, NotClosing]
    split
    case _ n ns hpc hpipe =>
      rw [hpipe]
      cases n with
      | write fd => exact iff_of_true hscope (by simp)
      | close fd =>
        refine iff_of_false (fun h => ?_) fun h => h hh hpc fd rfl
        -- `CleanUpConnRemaining` is called inside the scope
        exact absurd ((bracketed_inScope_iff hscope).mp h) (by decide)
    case _ hne =>
      refine iff_of_true bracketed_nil fun _ hpc fd hhead => ?_
      obtain ⟨ns, hpipe⟩ : ∃ ns, s.pipe = .close fd :: ns := List.head?_eq_some_iff.mp hhead
      exact hne _ _ hpc hpipe

theorem halted_step (hh : s.halted = none) (op : BackendThread.Op)
    (hop : NotClosing s (.step op)) : (s.step op).halted ≠ some .deadlock := by
  have hnone : ∀ {s' : BackendThread}, s'.halted = none → s'.halted ≠ some .deadlock := by
    intro s' h
    simp [h]
  unfold BackendThread.step
  rw [if_neg (not_not.mpr hh)]
  cases op with
  | write fd msg access => exact hnone ((halted_write fd msg access).trans hh)
  | close fd => exact hnone ((halted_close fd).trans hh)
  | notify | socket | connectFailed | cleanUp | addConnection =>
    dsimp only
    split_ifs
    · exact hnone hh
    · exact hnone hh
  | connEvent fd mask o connectError now =>
    dsimp only
    split_ifs
    · exact hnone ((halted_connEvent fd mask o connectError now).trans hh)
    · exact hnone hh
  | advance => exact hnone (halted_advance.trans hh)
  | cron now =>
    dsimp only
    split_ifs
    · exact halted_doCronTask hh now
    · exact hnone hh
  | processNotify =>
    dsimp only
    split
    case _ n ns hpc hpipe =>
      cases n with
      | write fd => exact hnone ((halted_write_item fd).trans hh)
      | close fd => exact absurd (by rw [hpipe]; rfl) (hop hh hpc fd)
    · exact hnone hh

/-- **The notification to close is the only step that locks `mu_` twice**, and the only one that does
not go through. -/
theorem unblocked_step_iff (hs : s.halted ≠ some .deadlock) (c : Call) :
    Unblocked s c ↔ NotClosing s c := by
  rcases c with op | fd
  swap
  · exact iff_of_true ⟨bracketed_inScope_nil, hs⟩ trivial
  by_cases hh : s.halted = none
  · have hlocks : locks s (.step op) = stepLocks s op := if_neg (not_not.mpr hh)
    rw [Unblocked, hlocks, bracketed_stepLocks_iff hh]
    exact and_iff_left_of_imp (halted_step hh op)
  · have hlocks : locks s (.step op) = [] := if_pos hh
    have hstep : s.step op = s := if_pos hh
    refine iff_of_true ⟨hlocks ▸ bracketed_nil, ?_⟩ ?_
    · show (s.step op).halted ≠ _
      rwa [hstep]
    · cases op with
      | processNotify => exact fun h => absurd h hh
      | _ => trivial

end Steps

/-! ### Runs -/

section Runs
variable {s : BackendThread}

theorem guarded_unblocked_iff (hs : s.halted ≠ some .deadlock) (calls : List Call) :
    Guarded step Unblocked s calls ↔ Guarded step NotClosing s calls :=
  guarded_iff_of_inv (fun s => s.halted ≠ some .deadlock)
    (fun _ _ hs hc => ((unblocked_step_iff hs _).mpr hc).2) (fun _ c hs => unblocked_step_iff hs c) hs

/-- **In a run no thread locks `mu_` while it holds it, and every step goes through, exactly if no
notification to close is processed.** -/
theorem unblocked_iff (timeout : ℤ) (calls : List Call) :
    Guarded step Unblocked { keepaliveTimeout := timeout } calls ↔
      Guarded step NotClosing { keepaliveTimeout := timeout } calls :=
  guarded_unblocked_iff (by simp) calls

variable {ι : Type*} [DecidableEq ι]

/-- What the thread `i` does to `mu_` in a run whose steps are taken by several threads. -/
def work (i : ι) : BackendThread → List (ι × Call) → Trace
  | _, [] => []
  | s, (j, c) :: calls => (if j = i then locks s c else []) ++ work i (step s c) calls

theorem bracketed_work (i : ι) : ∀ {calls : List (ι × Call)} {s : BackendThread},
    Guarded step Unblocked s (calls.map Prod.snd) → Bracketed (work i s calls)
  | [], _, _ => bracketed_nil
  | _ :: _, _, h => (bracketed_ite h.1.1 _).append (bracketed_work i h.2)

/-- **The threads of a run do not block each other**, however they interleave at `mu_`. -/
theorem work_progress (hs : s.halted ≠ some .deadlock) {calls : List (ι × Call)}
    (h : Guarded step NotClosing s (calls.map Prod.snd)) {t : Threads ι}
    (ht : Relation.ReflTransGen Step ⟨fun i => work i s calls, none⟩ t) :
    (∀ i, t.todo i = []) ∨ ∃ t', Step t t' :=
  progress (fun i => bracketed_work i ((guarded_unblocked_iff hs _).mpr h)) ht

/-- Finitely many of them get done. -/
theorem work_completes [Fintype ι] (hs : s.halted ≠ some .deadlock) {calls : List (ι × Call)}
    (h : Guarded step NotClosing s (calls.map Prod.snd)) :
    ∃ t, Relation.ReflTransGen Step ⟨fun i => work i s calls, none⟩ t ∧ ∀ i, t.todo i = [] :=
  completes (sound_start fun i => bracketed_work i ((guarded_unblocked_iff hs _).mpr h))

/-- **A notification to close freezes the backend**: its thread holds `mu_` and waits for it. -/
theorem close_frozen {t t' : Threads ι} {i : ι} {fd : ℤ} {rest : Trace}
    (h : t.todo i = processNotifyEvents (.close fd) ++ rest) (hfree : t.owner = none) :
    ∃ t₁, Step t t₁ ∧ (Relation.ReflTransGen Step t₁ t' → t'.owner = some i) := by
  have hlock : t.todo i = .lock :: .lock :: ([.unlock, .unlock] ++ rest) := h
  refine ⟨_, .lock hlock hfree, fun hs => ?_⟩
  exact (frozen (i := i) (Function.update_self i _ _) rfl hs).2

end Runs

/-- A connection is closed by `Close`. -/
theorem not_unblocked_close : ¬Guarded step Unblocked { keepaliveTimeout := 60 }
    [.step (.socket 5), .step (.addConnection 5 (bytes "a:1") false 0), .step (.close 5),
      .step (.notify (.close 5)), .step .processNotify] := by
  intro h
  have hlast := h.2.2.2.2.1.1
  revert hlast
  decide +kernel

end Pink.Backend.Locks
