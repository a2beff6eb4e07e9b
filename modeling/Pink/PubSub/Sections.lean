import Pink.Lib.Runs
import Pink.PubSub.Registry

/-! # The calls of the registry, section by section

`Subscribe`, `UnSubscribe` and the closing of a connection take a lock for each of their loops and
give it back in between. Here a call is where it has got to (`Pc`), a step is one locked section of
one call (`execute`), and the calls of any number of worker threads and of the pub/sub thread are
interleaved at will. A call that is not interrupted does what the functions of the registry do
(`calls_alone`, `close_alone`).

A descriptor is given to a new connection as soon as the connection that had it is closed. -/

namespace Pink.PubSub.Sections

open Pink.Redis.Wire Pink.Lib.Runs Pink.PubSub.Registry
open PubSubThread (Result)

/-! ### Where a call is -/

inductive Thread
  | pubsub
  | worker (n : ℕ)
  deriving DecidableEq, Repr

/-- What `ClientChannelSize` is called for. -/
inductive SizeFor
  | subscribe (conn : PinkConn) (names : List Bytes) (pattern : Bool)
  | unSubscribe (conn : PinkConn) (names : List Bytes) (pattern : Bool)
  /-- The second call of `UnSubscribe`, which has the `exist` of the first. -/
  | left (conn : PinkConn) (exist : Bool) (result : Result)
  deriving DecidableEq, Repr

/-- What follows a `MoveConnOut`. -/
inductive After
  /-- `UnSubscribe` returns 0. -/
  | ret (result : Result)
  /-- The pub/sub thread closes the descriptor. -/
  | closeFd
  deriving DecidableEq, Repr

/-- The section a call is in front of. -/
inductive Pc
  | sizeChannel (use : SizeFor)
  | sizePattern (use : SizeFor) (subscribed : ℤ)
  | moveConnIn (conn : PinkConn) (names : List Bytes) (pattern : Bool)
  /-- The loop of `Subscribe`, at a name. -/
  | insertName (conn : PinkConn) (pattern : Bool) (name : Bytes) (names : List Bytes)
      (subscribed : ℤ) (result : Result)
  /-- `UnSubscribe` without names. -/
  | report (conn : PinkConn) (pattern : Bool) (subscribed : ℤ)
  /-- The loop of `UnSubscribe`, at a name. -/
  | eraseName (conn : PinkConn) (pattern exist : Bool) (name : Bytes) (names : List Bytes)
      (subscribed : ℤ) (result : Result)
  | removePattern (ref : Ref) (after : After)
  | removeChannel (ref : Ref) (after : After)
  | eraseConn (ref : Ref) (after : After)
  | closeFd (ref : Ref)
  deriving DecidableEq, Repr

inductive Returned
  | subscribe (result : Result)
  | unSubscribe (result : Result) (subscribed : ℤ)
  /-- `CloseFd` of a connection. -/
  | close (conn : PinkConn)
  deriving DecidableEq, Repr

def Returned.closes : Returned → List PinkConn
  | .close conn => [conn]
  | .subscribe _ | .unSubscribe .. => []

/-- The end of a section: the next one, or the end of the call. -/
inductive Next
  | goto (pc : Pc)
  | ret (returned : Returned)
  deriving DecidableEq, Repr

/-- The head of the loop of `Subscribe`. -/
def insertNames (conn : PinkConn) (pattern : Bool) :
    List Bytes → ℤ → Result → Next
  | [], _, result => .ret (.subscribe result)
  | name :: names, subscribed, result =>
    .goto (.insertName conn pattern name names subscribed result)

/-- The head of the loop of `UnSubscribe`. -/
def eraseNames (conn : PinkConn) (pattern exist : Bool) :
    List Bytes → ℤ → Result → Next
  | [], _, result => .goto (.sizeChannel (.left conn exist result))
  | name :: names, subscribed, result =>
    .goto (.eraseName conn pattern exist name names subscribed result)

/-- What is done with the result of `ClientChannelSize`. -/
def sized : SizeFor → ℤ → Next
  | .subscribe conn names pattern, subscribed =>
    if subscribed = 0 then .goto (.moveConnIn conn names pattern)
    else insertNames conn pattern names subscribed []
  | .unSubscribe conn [] pattern, subscribed => .goto (.report conn pattern subscribed)
  | .unSubscribe conn (name :: names) pattern, subscribed =>
    eraseNames conn pattern (subscribed ≠ 0) (name :: names) subscribed []
  | .left conn exist result, subscribed =>
    if subscribed = 0 ∧ exist then .goto (.removePattern (.owned conn) (.ret result))
    else .ret (.unSubscribe result subscribed)

def After.next (ref : Ref) : After → Next
  | .ret result => .ret (.unSubscribe result 0)
  | .closeFd => .goto (.closeFd ref)

def SizeFor.conn : SizeFor → PinkConn
  | .subscribe conn _ _ | .unSubscribe conn _ _ | .left conn _ _ => conn

/-- One section; `none` if it uses a reference behind the end of its vector. -/
def execute (r : PubSubThread) : Pc → Option (PubSubThread × Next)
  | .sizeChannel use =>
    some (r, .goto (.sizePattern use (PubSubThread.nameCount r.pubsubChannel use.conn)))
  | .sizePattern use subscribed =>
    some (r, sized use (subscribed + PubSubThread.nameCount r.pubsubPattern use.conn))
  | .moveConnIn conn names pattern =>
    some (r.moveConnIn conn, insertNames conn pattern names 0 [])
  | .insertName conn pattern name names subscribed result =>
    let (r, subscribed, result) :=
      PubSubThread.subscribeTurn conn pattern (r, subscribed, result) name
    some (r, insertNames conn pattern names subscribed result)
  | .report conn pattern subscribed =>
    let result := PubSubThread.reportAll conn subscribed (r.subs (.ofFlag pattern)).toList
    some (r, if subscribed ≠ 0 then .goto (.removePattern (.owned conn) (.ret result))
      else .ret (.unSubscribe result 0))
  | .eraseName conn pattern exist name names subscribed result =>
    let (r, subscribed, result) :=
      PubSubThread.unSubscribeTurn conn pattern (r, subscribed, result) name
    some (r, eraseNames conn pattern exist names subscribed result)
  | .removePattern ref after =>
    (r.removeFrom ref .pattern).map fun r => (r, .goto (.removeChannel ref after))
  | .removeChannel ref after =>
    (r.removeFrom ref .channel).map fun r => (r, .goto (.eraseConn ref after))
  | .eraseConn ref after =>
    (r.deref ref).map fun conn =>
      ({ r with epoll := r.epoll ++ [.delEvent conn.fd], conns := r.conns.erase conn.fd },
        after.next ref)
  | .closeFd ref => (r.deref ref).map fun conn => (r, .ret (.close conn))

theorem execute_insertName (r : PubSubThread) (conn : PinkConn) (pattern : Bool) (name : Bytes)
    (names : List Bytes) (subscribed : ℤ) (result : Result) :
    execute r (.insertName conn pattern name names subscribed result) =
      let st := PubSubThread.subscribeTurn conn pattern (r, subscribed, result) name
      some (st.1, insertNames conn pattern names st.2.1 st.2.2) := rfl

theorem execute_eraseName (r : PubSubThread) (conn : PinkConn) (pattern exist : Bool) (name : Bytes)
    (names : List Bytes) (subscribed : ℤ) (result : Result) :
    execute r (.eraseName conn pattern exist name names subscribed result) =
      let st := PubSubThread.unSubscribeTurn conn pattern (r, subscribed, result) name
      some (st.1, eraseNames conn pattern exist names st.2.1 st.2.2) := rfl

/-- The connection a call is about. -/
def Pc.ref : Pc → Ref
  | .sizeChannel use | .sizePattern use _ => .owned use.conn
  | .moveConnIn conn .. | .insertName conn .. | .report conn .. | .eraseName conn .. => .owned conn
  | .removePattern ref _ | .removeChannel ref _ | .eraseConn ref _ | .closeFd ref => ref

inductive Action
  | subscribe | unSubscribe | close
  deriving DecidableEq, Repr

def SizeFor.action : SizeFor → Action
  | .subscribe .. => .subscribe
  | .unSubscribe .. | .left .. => .unSubscribe

def After.action : After → Action
  | .ret _ => .unSubscribe
  | .closeFd => .close

/-- Which of the calls it is. -/
def Pc.action : Pc → Action
  | .sizeChannel use | .sizePattern use _ => use.action
  | .moveConnIn .. | .insertName .. => .subscribe
  | .report .. | .eraseName .. => .unSubscribe
  | .removePattern _ after | .removeChannel _ after | .eraseConn _ after => after.action
  | .closeFd _ => .close

/-! ### The machine -/

structure State where
  registry : PubSubThread := {}
  accepted : List PinkConn := []
  closed : List PinkConn := []
  /-- The calls in progress. -/
  calls : List (Thread × Pc) := []
  returned : List (Thread × Returned) := []

inductive Label
  /-- A new connection. -/
  | accept (conn : PinkConn)
  | subscribe (n : ℕ) (conn : PinkConn) (names : List Bytes) (pattern : Bool)
  | unSubscribe (n : ℕ) (conn : PinkConn) (names : List Bytes) (pattern : Bool)
  | updateConnReadyState (fd : ℤ) (state : ReadyState)
  /-- An event of a descriptor, after which the pub/sub thread closes the connection. -/
  | close (fd : ℤ)
  /-- The `SendReply` of a publish fails at a slot. -/
  | publishError (k : Kind) (name : Bytes) (i : ℕ)
  /-- A thread goes through a section. -/
  | advance (th : Thread)
  deriving DecidableEq, Repr

namespace State

/-- The connections whose descriptors are open. -/
def IsOpen (s : State) (conn : PinkConn) : Prop := conn ∈ s.accepted ∧ conn ∉ s.closed

instance (s : State) (conn : PinkConn) : Decidable (s.IsOpen conn) :=
  inferInstanceAs (Decidable (_ ∧ _))

/-- A new object, with a descriptor that is not in use. -/
def Fresh (s : State) (conn : PinkConn) : Prop :=
  (∀ c ∈ s.accepted, c.id ≠ conn.id) ∧ ∀ c ∈ s.accepted, c ∉ s.closed → c.fd ≠ conn.fd

instance (s : State) (conn : PinkConn) : Decidable (s.Fresh conn) :=
  inferInstanceAs (Decidable (_ ∧ _))

/-- A thread is not in a call. -/
def Idle (s : State) (th : Thread) : Prop := ∀ p ∈ s.calls, p.1 ≠ th

instance (s : State) (th : Thread) : Decidable (s.Idle th) :=
  inferInstanceAs (Decidable (∀ p ∈ s.calls, _))

def start (s : State) (th : Thread) (pc : Pc) : State := { s with calls := (th, pc) :: s.calls }

/-- The calls of the other threads. -/
def others (s : State) (th : Thread) : List (Thread × Pc) := s.calls.filter fun p => p.1 ≠ th

/-- The end of a section. -/
def settle (s : State) (th : Thread) (r : PubSubThread) : Next → State
  | .goto pc => { s with registry := r, calls := (th, pc) :: s.others th }
  | .ret returned => { s with
      registry := r
      closed := returned.closes ++ s.closed
      calls := s.others th
      returned := s.returned ++ [(th, returned)] }

def advance (s : State) (th : Thread) : Option State :=
  match s.calls.find? fun p => p.1 = th with
  | none => some s
  | some p => (execute s.registry p.2).map fun x => s.settle th x.1 x.2

end State

/-- One step; a label that is not possible changes nothing. -/
def apply (s : State) : Label → Option State
  | .accept conn =>
    some (if s.Fresh conn then { s with accepted := conn :: s.accepted } else s)
  | .subscribe n conn names pattern =>
    some (if conn ∈ s.accepted ∧ s.Idle (.worker n) then
      s.start (.worker n) (.sizeChannel (.subscribe conn names pattern)) else s)
  | .unSubscribe n conn names pattern =>
    some (if conn ∈ s.accepted ∧ s.Idle (.worker n) then
      s.start (.worker n) (.sizeChannel (.unSubscribe conn names pattern)) else s)
  | .updateConnReadyState fd state =>
    some { s with registry := s.registry.updateConnReadyState fd state }
  | .close fd =>
    some (if s.Idle .pubsub then
      match s.registry.conns[fd]? with
      | none => { s with registry := { s.registry with
          epoll := s.registry.epoll ++ [.delEvent fd] } }
      | some h => s.start .pubsub (.removePattern (.owned h.conn) .closeFd)
    else s)
  | .publishError k name i =>
    some (match (s.registry.subscribers k name)[i]? with
      | none => s
      | some conn =>
        if s.registry.isReady conn.fd ∧ s.Idle .pubsub then
          s.start .pubsub (.removePattern (.slot k name i) .closeFd)
        else s)
  | .advance th => s.advance th

def step (s : Option State) (l : Label) : Option State := s.bind fun s => apply s l

/-! ### A call that is not interrupted -/

/-- A call goes on to its end with no section of another one in between. -/
inductive Ends : PubSubThread → Next → PubSubThread → Returned → Prop
  | ret {r : PubSubThread} {x : Returned} : Ends r (.ret x) r x
  | goto {r r₁ r' : PubSubThread} {pc : Pc} {next : Next} {x : Returned}
      (he : execute r pc = some (r₁, next)) (h : Ends r₁ next r' x) : Ends r (.goto pc) r' x

theorem others_settle (s : State) (th : Thread) (r : PubSubThread) (next : Next) :
    (s.settle th r next).others th = s.others th := by
  cases next <;> simp [State.settle, State.others]

theorem settle_settle (s : State) (th : Thread) (r r₁ : PubSubThread) (pc : Pc) (next : Next) :
    (s.settle th r (.goto pc)).settle th r₁ next = s.settle th r₁ next := by
  have ho := others_settle s th r (.goto pc)
  cases next with
  | goto pc' => simp only [State.settle] at ho ⊢; rw [ho]
  | ret x => simp only [State.settle] at ho ⊢; rw [ho]

theorem advance_settle {s : State} {th : Thread} {r r₁ : PubSubThread} {pc : Pc} {next : Next}
    (he : execute r pc = some (r₁, next)) :
    (s.settle th r (.goto pc)).advance th = some (s.settle th r₁ next) := by
  have hf : (s.settle th r (.goto pc)).calls.find? (fun p => p.1 = th) = some (th, pc) := by
    simp [State.settle]
  have hr : (s.settle th r (.goto pc)).registry = r := rfl
  rw [State.advance, hf]
  dsimp only
  rw [hr, he, Option.map_some, settle_settle]

theorem run_of_ends {r r' : PubSubThread} {next : Next} {x : Returned} (h : Ends r next r' x)
    (s : State) (th : Thread) :
    ∃ m, run step (some (s.settle th r next)) (List.replicate m (.advance th)) =
      some (s.settle th r' (.ret x)) := by
  induction h with
  | ret => exact ⟨0, rfl⟩
  | @goto r r₁ r' pc next x he _ ih =>
    obtain ⟨m, hm⟩ := ih
    refine ⟨m + 1, ?_⟩
    rw [List.replicate_succ, run, List.foldl_cons]
    have ha : step (some (s.settle th r (.goto pc))) (.advance th) =
        some (s.settle th r₁ next) := advance_settle he
    rw [ha]
    exact hm

/-- The call starts on an idle thread. -/
theorem start_eq_settle {s : State} {th : Thread} (h : s.Idle th) (pc : Pc) :
    s.start th pc = s.settle th s.registry (.goto pc) := by
  have ho : s.others th = s.calls := List.filter_eq_self.mpr fun p hp => by simpa using h p hp
  rw [State.start, State.settle, ho]

theorem insertNames_ends (conn : PinkConn) (pattern : Bool) :
    ∀ (names : List Bytes) (r : PubSubThread) (subscribed : ℤ) (result : Result),
      Ends r (insertNames conn pattern names subscribed result)
        (names.foldl (PubSubThread.subscribeTurn conn pattern) (r, subscribed, result)).1
        (.subscribe
          (names.foldl (PubSubThread.subscribeTurn conn pattern) (r, subscribed, result)).2.2) := by
  intro names
  induction names with
  | nil => exact fun _ _ _ => .ret
  | cons name names ih =>
    intro r subscribed result
    exact .goto rfl (ih _ _ _)

/-- **`Subscribe` alone.** -/
theorem subscribe_ends (r : PubSubThread) (conn : PinkConn) (names : List Bytes) (pattern : Bool) :
    Ends r (.goto (.sizeChannel (.subscribe conn names pattern)))
      (r.subscribe conn names pattern).1 (.subscribe (r.subscribe conn names pattern).2) := by
  refine .goto rfl (.goto rfl ?_)
  show Ends r (sized _ (r.clientChannelSize conn)) _ _
  unfold PubSubThread.subscribe sized
  dsimp only
  by_cases h0 : r.clientChannelSize conn = 0
  · rw [if_pos h0, if_pos h0, h0]
    exact .goto rfl (insertNames_ends ..)
  · rw [if_neg h0, if_neg h0]
    exact insertNames_ends ..

theorem moveConnOut_ends (r : PubSubThread) (conn : PinkConn) (after : After) :
    ∃ r', r.moveConnOut (.owned conn) = some r' ∧
      ∀ {r'' x}, Ends r' (after.next (.owned conn)) r'' x →
        Ends r (.goto (.removePattern (.owned conn) after)) r'' x := by
  obtain ⟨r₁, h1, -⟩ := PubSubThread.removeFrom_owned .pattern conn r
  obtain ⟨r₂, h2, -⟩ := PubSubThread.removeFrom_owned .channel conn r₁
  have hr : r.removeConn (.owned conn) = some r₂ := by rw [PubSubThread.removeConn, h1]; exact h2
  refine ⟨_, by rw [PubSubThread.moveConnOut, hr]; rfl, fun h => ?_⟩
  refine .goto (by rw [execute, h1]; rfl) (.goto (by rw [execute, h2]; rfl) (.goto ?_ h))
  rfl

/-- The second `ClientChannelSize` of `UnSubscribe` and what follows it. -/
theorem left_ends (r : PubSubThread) (conn : PinkConn) (exist : Bool) (result : Result) :
    ∃ r', (if r.clientChannelSize conn = 0 ∧ exist then r.moveConnOut (.owned conn) else some r) =
        some r' ∧
      Ends r (.goto (.sizeChannel (.left conn exist result))) r'
        (.unSubscribe result (r.clientChannelSize conn)) := by
  obtain ⟨r', hr', hends⟩ := moveConnOut_ends r conn (.ret result)
  have hsized : ∀ {r' x}, Ends r (sized (.left conn exist result) (r.clientChannelSize conn)) r' x →
      Ends r (.goto (.sizeChannel (.left conn exist result))) r' x := fun h =>
    .goto rfl (.goto rfl h)
  dsimp only [sized] at hsized
  by_cases h0 : r.clientChannelSize conn = 0 ∧ exist
  · rw [if_pos h0] at hsized ⊢
    refine ⟨r', hr', hsized ?_⟩
    rw [h0.1]
    exact hends .ret
  · rw [if_neg h0] at hsized ⊢
    exact ⟨r, rfl, hsized .ret⟩

theorem eraseNames_ends (conn : PinkConn) (pattern exist : Bool) (r' : PubSubThread)
    (x : Returned) :
    ∀ (names : List Bytes) (st : PubSubThread × ℤ × Result),
      Ends (names.foldl (PubSubThread.unSubscribeTurn conn pattern) st).1
        (.goto (.sizeChannel (.left conn exist
          (names.foldl (PubSubThread.unSubscribeTurn conn pattern) st).2.2))) r' x →
      Ends st.1 (eraseNames conn pattern exist names st.2.1 st.2.2) r' x := by
  intro names
  induction names with
  | nil => exact fun _ h => h
  | cons name names ih =>
    intro st h
    exact .goto rfl (ih _ h)

/-- **`UnSubscribe` alone.** -/
theorem unSubscribe_ends (r : PubSubThread) (conn : PinkConn) (names : List Bytes)
    (pattern : Bool) :
    ∃ res, r.unSubscribe conn names pattern = some res ∧
      Ends r (.goto (.sizeChannel (.unSubscribe conn names pattern))) res.1
        (.unSubscribe res.2.1 res.2.2) := by
  unfold PubSubThread.unSubscribe
  cases names with
  | nil =>
    obtain ⟨r', hr', hends⟩ := moveConnOut_ends r conn (.ret
      (PubSubThread.reportAll conn (r.clientChannelSize conn) (r.subs (.ofFlag pattern)).toList))
    rw [if_pos rfl]
    by_cases h0 : r.clientChannelSize conn ≠ 0
    · rw [if_pos h0, hr']
      refine ⟨_, rfl, .goto rfl (.goto rfl (.goto rfl ?_))⟩
      show Ends r (if r.clientChannelSize conn ≠ 0 then _ else _) _ _
      rw [if_pos h0]
      exact hends .ret
    · rw [if_neg h0]
      refine ⟨_, rfl, .goto rfl (.goto rfl (.goto rfl ?_))⟩
      show Ends r (if r.clientChannelSize conn ≠ 0 then _ else _) _ _
      rw [if_neg h0]
      exact .ret
  | cons name names =>
    rw [if_neg (List.cons_ne_nil _ _)]
    dsimp only
    have hends := fun r' x => eraseNames_ends conn pattern (r.clientChannelSize conn ≠ 0) r' x
      (name :: names) (r, r.clientChannelSize conn, [])
    generalize (name :: names).foldl (PubSubThread.unSubscribeTurn conn pattern)
      (r, r.clientChannelSize conn, []) = st at hends ⊢
    obtain ⟨r', hr', hleft⟩ := left_ends st.1 conn (r.clientChannelSize conn ≠ 0) st.2.2
    simp only [decide_eq_true_eq] at hr'
    rw [hr']
    exact ⟨_, rfl, .goto rfl (.goto rfl (hends _ _ hleft))⟩

/-- **Closing alone.** -/
theorem close_ends (r : PubSubThread) (conn : PinkConn) :
    ∃ r', r.moveConnOut (.owned conn) = some r' ∧
      Ends r (.goto (.removePattern (.owned conn) .closeFd)) r' (.close conn) := by
  obtain ⟨r', hr', hends⟩ := moveConnOut_ends r conn .closeFd
  exact ⟨r', hr', hends (.goto rfl .ret)⟩

/-- **The calls without interruption.** A call that starts on an idle thread and goes on with no
other in between leaves the registry as the function does, and returns the same. -/
theorem calls_alone (s : State) (n : ℕ) (conn : PinkConn) (names : List Bytes) (pattern : Bool)
    (hc : conn ∈ s.accepted) (hi : s.Idle (.worker n)) :
    (∃ m, run step (some s)
        (.subscribe n conn names pattern :: List.replicate m (.advance (.worker n))) =
      some (s.settle (.worker n) (s.registry.subscribe conn names pattern).1
        (.ret (.subscribe (s.registry.subscribe conn names pattern).2)))) ∧
    ∃ res m, s.registry.unSubscribe conn names pattern = some res ∧ run step (some s)
        (.unSubscribe n conn names pattern :: List.replicate m (.advance (.worker n))) =
      some (s.settle (.worker n) res.1 (.ret (.unSubscribe res.2.1 res.2.2))) := by
  constructor
  · obtain ⟨m, hm⟩ := run_of_ends (subscribe_ends s.registry conn names pattern) s (.worker n)
    refine ⟨m, ?_⟩
    have hs : step (some s) (.subscribe n conn names pattern) =
        some (s.start (.worker n) (.sizeChannel (.subscribe conn names pattern))) :=
      congrArg some (if_pos ⟨hc, hi⟩)
    rw [run, List.foldl_cons, hs, start_eq_settle hi]
    exact hm
  · obtain ⟨res, hres, hends⟩ := unSubscribe_ends s.registry conn names pattern
    obtain ⟨m, hm⟩ := run_of_ends hends s (.worker n)
    refine ⟨res, m, hres, ?_⟩
    have hs : step (some s) (.unSubscribe n conn names pattern) =
        some (s.start (.worker n) (.sizeChannel (.unSubscribe conn names pattern))) :=
      congrArg some (if_pos ⟨hc, hi⟩)
    rw [run, List.foldl_cons, hs, start_eq_settle hi]
    exact hm

/-- The closing of a connection without interruption. -/
theorem close_alone (s : State) {fd : ℤ} {h : ConnHandle} (hh : s.registry.conns[fd]? = some h)
    (hi : s.Idle .pubsub) :
    ∃ r' m, s.registry.moveConnOut (.owned h.conn) = some r' ∧
      run step (some s) (.close fd :: List.replicate m (.advance .pubsub)) =
        some (s.settle .pubsub r' (.ret (.close h.conn))) := by
  obtain ⟨r', hr', hends⟩ := close_ends s.registry h.conn
  obtain ⟨m, hm⟩ := run_of_ends hends s .pubsub
  refine ⟨r', m, hr', ?_⟩
  have hs : step (some s) (.close fd) =
      some (s.start .pubsub (.removePattern (.owned h.conn) .closeFd)) := by
    show some (if s.Idle .pubsub then _ else s) = _
    rw [if_pos hi, hh]
  rw [run, List.foldl_cons, hs, start_eq_settle hi]
  exact hm

end Pink.PubSub.Sections
