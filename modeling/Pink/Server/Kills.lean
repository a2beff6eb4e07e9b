import Pink.Server.Threads

/-! # Kill requests

`TryKillConn` and `KillConn` look for an address among the connections under one lock, and mark it
under another; a later cron tick closes a connection with a marked address and takes the mark away.
A kill is `find` and `mark` here, with any steps of the thread in between, and `kill_alone` says
that without such steps the two are the call. The state also records for which connections a kill
was: those in `conns_` with the address when the call returned true.

The mark of an address stays when its connection goes another way, and then hits the next connection
from there (`later_conn_killed`). A cron tick closes only connections a kill was for in every run in
which no other connection enters `conns_` while its address is marked (`killed_of_marked`). -/

namespace Pink.Server.Kills

open Pink.Redis.Wire Pink.Lib.Runs Pink.Server.Conns Pink.Server.Threads

structure State where
  server : ServerState := {}
  /-- The calls that have found a connection and are in front of `killer_mutex_`. -/
  finding : List Bytes := []
  /-- The connections in `conns` when a kill of their address returned true. -/
  meant : List Conn := []
  /-- The connections a cron tick closed because of their address. -/
  killed : List Conn := []

inductive Op
  /-- A step of the thread, or a whole kill. -/
  | thread (op : Threads.Op)
  /-- `MoveConnIn` of a connection, and whether `Register` has taken it. -/
  | moveConnIn (conn : Conn) (success : Bool)
  /-- The first section of a kill. -/
  | find (ipPort : Bytes)
  /-- The second section of a kill, and its return. -/
  | mark (ipPort : Bytes)
  deriving DecidableEq, Repr

/-- The connections with an address. -/
def withAddress (s : ServerState) (ipPort : Bytes) : List Conn :=
  (s.conns.toList.map Prod.snd).filter fun c => c.ipPort = ipPort

/-- The first section: the connection, if there is one, is marked for `is_deleting`. -/
def findConn (worker : Bool) (s : ServerState) (ipPort : Bytes) : Option ServerState :=
  if ipPort = kKillAllConnsTask then some s
  else
    (s.conns.toList.find? fun p => p.2.ipPort = ipPort).map fun p =>
      { s with waitingDel := s.delayedDel worker p.2 }

def markAddress (s : ServerState) (ipPort : Bytes) : ServerState :=
  { s with deletingConnIpport := insert ipPort s.deletingConnIpport }

/-- The vector `to_close` of a cron tick. -/
def toClose (worker : Bool) (s : ServerState) (now : ℤ) : List Conn :=
  if kKillAllConnsTask ∈ s.deletingConnIpport then []
  else (ServerState.cronLoop worker now s.conns.toList s [] []).2.1

/-- The connections a kill is for that returns in this step. -/
def meantBy (worker : Bool) (s : ServerState) : Threads.Op → List Conn
  | .killConn ipPort => if (s.tryKillConn worker ipPort).2 then withAddress s ipPort else []
  | .killAllConns => withAddress s kKillAllConnsTask
  | _ => []

/-- The connections killed in this step. -/
def killedBy (worker : Bool) (s : ServerState) : Threads.Op → List Conn
  | .cron now => toClose worker s now
  | _ => []

/-- One step. Only `WorkerThread` takes connections by `MoveConnIn`. -/
def step (t : ThreadKind) (s : State) (op : Op) : State :=
  if s.server.crashed then s
  else
    match op with
    | .thread op => { s with
        server := Threads.step t s.server op
        meant := s.meant ++ meantBy t.isWorker s.server op
        killed := s.killed ++ killedBy t.isWorker s.server op }
    | .moveConnIn conn success =>
      if t.isWorker ∧ success then { s with server := s.server.enter conn } else s
    | .find ipPort =>
      match findConn t.isWorker s.server ipPort with
      | none => s
      | some server => { s with server, finding := ipPort :: s.finding }
    | .mark ipPort =>
      if ipPort ∈ s.finding then
        { s with
          server := markAddress s.server ipPort
          finding := s.finding.erase ipPort
          meant := s.meant ++ withAddress s.server ipPort }
      else s

/-- A kill without interruption. -/
theorem kill_alone (worker : Bool) (s : ServerState) (ipPort : Bytes) :
    s.tryKillConn worker ipPort = match findConn worker s ipPort with
      | none => (s, false)
      | some s => (markAddress s ipPort, true) := by
  unfold ServerState.tryKillConn findConn
  split_ifs
  · rfl
  · cases s.conns.toList.find? fun p => p.2.ipPort = ipPort <;> rfl

/-- The cron ticks have killed only connections a kill was for. -/
def OnlyMeant (s : State) : Prop := ∀ c ∈ s.killed, c ∈ s.meant

instance (s : State) : Decidable (OnlyMeant s) := inferInstanceAs (Decidable (∀ c ∈ _, _))

/-- A new connection gets into `conns`. -/
def admits : ThreadKind → Setup → Bool
  | .worker, setup => setup = .ok
  | .holy _, setup => setup ≠ .null

/-- No connection enters `conns` while its address is marked, except one the kill was for. -/
def Unmarked (t : ThreadKind) (s : State) : Op → Prop
  | .thread (.newConn _ ipPort setup _) =>
    admits t setup → ipPort ∉ s.server.deletingConnIpport
  | .moveConnIn conn _ => conn.ipPort ∈ s.server.deletingConnIpport → conn ∈ s.meant
  | _ => True

instance (t : ThreadKind) (s : State) (op : Op) : Decidable (Unmarked t s op) := by
  unfold Unmarked
  split <;> infer_instance

/-! ### What the steps do to the marks -/

/-- The step adds neither connections nor marks. -/
structure Shrinks (s s' : ServerState) : Prop where
  conns : ∀ (fd : ℤ) (c : Conn), s'.conns[fd]? = some c → s.conns[fd]? = some c
  marks : s'.deletingConnIpport ⊆ s.deletingConnIpport

theorem Shrinks.refl (s : ServerState) : Shrinks s s := ⟨fun _ _ h => h, Finset.Subset.refl _⟩

theorem Shrinks.trans {s s₁ s' : ServerState} (h : Shrinks s s₁) (h' : Shrinks s₁ s') :
    Shrinks s s' :=
  ⟨fun fd c hc => h.conns fd c (h'.conns fd c hc), h'.marks.trans h.marks⟩

/-- Changes of other fields. -/
theorem Shrinks.of_eq {s s' : ServerState} (hc : s'.conns = s.conns)
    (hm : s'.deletingConnIpport = s.deletingConnIpport) : Shrinks s s' :=
  ⟨fun _ _ h => hc ▸ h, hm ▸ Finset.Subset.refl _⟩

theorem shrinks_erase {s s' : ServerState} {fd : ℤ} (hc : s'.conns = s.conns.erase fd)
    (hm : s'.deletingConnIpport ⊆ s.deletingConnIpport) : Shrinks s s' := by
  refine ⟨fun fd' c h => ?_, hm⟩
  rw [hc, Std.ExtTreeMap.getElem?_erase] at h
  split_ifs at h
  exact h

theorem erase_shrinks (s : ServerState) (fd : ℤ) : Shrinks s (s.erase fd) :=
  shrinks_erase rfl (Finset.Subset.refl _)

theorem closeFd_shrinks (s : ServerState) (c : Conn) : Shrinks s (s.closeFd c) := .of_eq rfl rfl

theorem closeTimedOut_shrinks (s : ServerState) (c : Conn) : Shrinks s (s.closeTimedOut c) :=
  .of_eq rfl rfl

theorem closeAndErase_shrinks (s : ServerState) (c : Conn) : Shrinks s (closeAndErase s c) :=
  (closeFd_shrinks s c).trans (erase_shrinks _ c.fd)

theorem touch_shrinks (s : ServerState) (c : Conn) (now : ℤ) : Shrinks s (touch s c now) :=
  .of_eq rfl rfl

theorem foldl_shrinks {f : ServerState → Conn → ServerState} (hf : ∀ s c, Shrinks s (f s c)) :
    ∀ (cs : List Conn) (s : ServerState), Shrinks s (cs.foldl f s) := by
  intro cs
  induction cs with
  | nil => exact fun s => .refl s
  | cons c cs ih => exact fun s => (hf s c).trans (ih (f s c))

/-- The loop of a cron tick collects connections whose address was marked before. -/
theorem cronLoop_shrinks (worker : Bool) (now : ℤ) :
    ∀ (rest : List (ℤ × Conn)) (s : ServerState) (cs ts : List Conn),
      Shrinks s (ServerState.cronLoop worker now rest s cs ts).1 ∧
      ∀ c ∈ (ServerState.cronLoop worker now rest s cs ts).2.1,
        c ∈ cs ∨ (∃ fd, (fd, c) ∈ rest) ∧ c.ipPort ∈ s.deletingConnIpport := by
  intro rest
  induction rest with
  | nil => exact fun s cs ts => ⟨.refl s, fun c hc => .inl hc⟩
  | cons p rest ih =>
    obtain ⟨fd, conn⟩ := p
    intro s cs ts
    have hmem : ∀ {c}, (∃ fd, (fd, c) ∈ rest) → ∃ fd', (fd', c) ∈ (fd, conn) :: rest :=
      fun ⟨fd', h⟩ => ⟨fd', List.mem_cons_of_mem _ h⟩
    unfold ServerState.cronLoop
    split_ifs with hmark
    · obtain ⟨hs, hc⟩ := ih { s.erase fd with
          deletingConnIpport := s.deletingConnIpport.erase conn.ipPort
          waitingDel := s.delayedDel worker conn } (cs ++ [conn]) ts
      refine ⟨(shrinks_erase rfl (Finset.erase_subset _ _)).trans hs, fun c h => ?_⟩
      rcases hc c h with h | ⟨h1, h2⟩
      · rcases List.mem_append.mp h with h | h
        · exact .inl h
        · obtain rfl := List.mem_singleton.mp h
          exact .inr ⟨⟨fd, List.mem_cons_self⟩, hmark⟩
      · exact .inr ⟨hmem h1, Finset.mem_of_mem_erase h2⟩
    · obtain ⟨hs, hc⟩ := ih (s.erase fd) cs (ts ++ [conn])
      refine ⟨(erase_shrinks s fd).trans hs, fun c h => ?_⟩
      exact (hc c h).imp id fun h => ⟨hmem h.1, h.2⟩
    · obtain ⟨hs, hc⟩ := ih s cs ts
      exact ⟨hs, fun c h => (hc c h).imp id fun h => ⟨hmem h.1, h.2⟩⟩

theorem doCronTask_shrinks (worker : Bool) (s : ServerState) (now : ℤ) :
    Shrinks s (s.doCronTask worker now) := by
  unfold ServerState.doCronTask
  split_ifs
  · exact ⟨fun fd c h => by simp at h, Finset.empty_subset _⟩
  · exact (cronLoop_shrinks worker now s.conns.toList s [] []).1.trans
      ((foldl_shrinks closeFd_shrinks _ _).trans
        (foldl_shrinks closeTimedOut_shrinks _ _))

/-- A connection that a cron tick kills is in the map, with a marked address. -/
theorem mem_toClose {worker : Bool} {s : ServerState} {now : ℤ} {c : Conn}
    (h : c ∈ toClose worker s now) :
    (∃ fd : ℤ, s.conns[fd]? = some c) ∧ c.ipPort ∈ s.deletingConnIpport := by
  unfold toClose at h
  split_ifs at h
  · exact absurd h List.not_mem_nil
  · rcases (cronLoop_shrinks worker now s.conns.toList s [] []).2 c h with h | ⟨⟨fd, hfd⟩, hm⟩
    · exact absurd h List.not_mem_nil
    · exact ⟨⟨fd, Std.ExtTreeMap.mem_toList_iff_getElem?_eq_some.mp hfd⟩, hm⟩

theorem moveConnOut_shrinks (s : ServerState) (fd : ℤ) : Shrinks s (s.moveConnOut fd) := by
  unfold ServerState.moveConnOut
  split
  · exact .refl s
  · exact shrinks_erase rfl (Finset.Subset.refl _)

theorem cleanup_shrinks (s : ServerState) : Shrinks s s.cleanup := by
  have h : Shrinks s { s with conns := ∅ } :=
    ⟨fun fd c h => absurd (Std.ExtTreeMap.getElem?_empty.symm.trans h) (by simp),
      Finset.Subset.refl _⟩
  exact h.trans (foldl_shrinks closeFd_shrinks _ _)

theorem handleEvent_shrinks (s : ServerState) (c : Conn) (mask : Mask) (o : Outcome) (now : ℤ) :
    Shrinks s (WorkerThread.handleEvent s c mask o now) := by
  unfold WorkerThread.handleEvent
  split
  · exact .refl s
  split
  · exact .of_eq rfl rfl
  split
  · exact shrinks_erase rfl (Finset.Subset.refl _)
  dsimp only
  split_ifs
  · exact (touch_shrinks s c now).trans (closeAndErase_shrinks _ c)
  · exact closeAndErase_shrinks s c
  · exact touch_shrinks s c now
  · exact .refl s

theorem handleConnEvent_shrinks (async : Bool) (s : ServerState) (fd : ℤ) (mask : Mask)
    (o : Outcome) (now : ℤ) : Shrinks s (HolyThread.handleConnEvent async s fd mask o now) := by
  unfold HolyThread.handleConnEvent
  split
  · exact .of_eq rfl rfl
  case _ c hc =>
    dsimp only
    split_ifs
    · exact (touch_shrinks s c now).trans (closeAndErase_shrinks _ c)
    · exact closeAndErase_shrinks s c
    · exact touch_shrinks s c now
    · exact .refl s

theorem handleNotiClose_shrinks (s : ServerState) (fd : ℤ) :
    Shrinks s (HolyThread.handleNotiClose s fd) := by
  unfold HolyThread.handleNotiClose
  split
  · exact .refl s
  · exact closeAndErase_shrinks s _

/-! ### Marked connections are meant -/

/-- A connection with a marked address is one a kill was for, and so are those killed. -/
structure Inv (s : State) : Prop where
  marked : ∀ (fd : ℤ) (c : Conn), s.server.conns[fd]? = some c →
    c.ipPort ∈ s.server.deletingConnIpport → c ∈ s.meant
  killed : OnlyMeant s

theorem Inv.of_shrinks {s s' : State} (h : Inv s) (hs : Shrinks s.server s'.server)
    (hm : s.meant ⊆ s'.meant) (hk : ∀ c ∈ s'.killed, c ∈ s'.meant) : Inv s' :=
  ⟨fun fd c hc ha => hm (h.marked fd c (hs.conns fd c hc) (hs.marks ha)), hk⟩

theorem mem_withAddress {s : ServerState} {fd : ℤ} {c : Conn} (h : s.conns[fd]? = some c) :
    c ∈ withAddress s c.ipPort :=
  List.mem_filter.mpr ⟨List.mem_map.mpr
    ⟨(fd, c), Std.ExtTreeMap.mem_toList_iff_getElem?_eq_some.mpr h, rfl⟩, by simp⟩

/-- An address is marked, and the kill is for the connections that have it. -/
theorem Inv.mark {s s' : State} {ipPort : Bytes} (h : Inv s)
    (hc : s'.server.conns = s.server.conns)
    (hd : s'.server.deletingConnIpport = insert ipPort s.server.deletingConnIpport)
    (hm : s'.meant = s.meant ++ withAddress s.server ipPort) (hk : s'.killed = s.killed) :
    Inv s' := by
  refine ⟨fun fd c hfd ha => ?_, fun c hkc => ?_⟩
  · rw [hc] at hfd
    rw [hd] at ha
    rw [hm]
    rcases Finset.mem_insert.mp ha with he | ha
    · exact List.mem_append_right _ (he ▸ mem_withAddress hfd)
    · exact List.mem_append_left _ (h.marked fd c hfd ha)
  · rw [hm]
    exact List.mem_append_left _ (h.killed c (hk ▸ hkc))

/-- A connection enters the map. -/
theorem Inv.enter {s s' : State} {conn : Conn} (h : Inv s)
    (hc : s'.server.conns = s.server.conns.insert conn.fd conn)
    (hd : s'.server.deletingConnIpport = s.server.deletingConnIpport)
    (hm : s'.meant = s.meant) (hk : s'.killed = s.killed)
    (hconn : conn.ipPort ∈ s.server.deletingConnIpport → conn ∈ s.meant) : Inv s' := by
  refine ⟨fun fd c hfd ha => ?_, fun c hkc => ?_⟩
  · rw [hc, Std.ExtTreeMap.getElem?_insert] at hfd
    rw [hd] at ha
    rw [hm]
    split_ifs at hfd
    · obtain rfl := Option.some.inj hfd
      exact hconn ha
    · exact h.marked fd c hfd ha
  · rw [hm]
    exact h.killed c (hk ▸ hkc)

/-- A step of the thread that is no new connection and no kill. -/
theorem step_shrinks (t : ThreadKind) {s : ServerState} (hcr : s.crashed = false)
    (op : Threads.Op) (hnew : ∀ fd ipPort setup now, op ≠ .newConn fd ipPort setup now)
    (hkill : ∀ ipPort, op ≠ .killConn ipPort) (hall : op ≠ .killAllConns) :
    Shrinks s (Threads.step t s op) := by
  unfold Threads.step
  rw [if_neg (by simp [hcr])]
  cases op with
  | newConn fd ipPort setup now => exact absurd rfl (hnew fd ipPort setup now)
  | event c mask o now =>
    cases t with
    | worker => exact handleEvent_shrinks s c mask o now
    | holy async => exact handleConnEvent_shrinks async s c.fd mask o now
  | notiClose fd =>
    cases t with
    | worker => exact .refl s
    | holy async => exact handleNotiClose_shrinks s fd
  | cron now => exact doCronTask_shrinks t.isWorker s now
  | killConn ipPort => exact absurd rfl (hkill ipPort)
  | killAllConns => exact absurd rfl hall
  | moveConnOut fd => exact moveConnOut_shrinks s fd
  | cleanup => exact cleanup_shrinks s

/-- A new connection gets into the map, or the map and the marks stay as they are. -/
theorem step_newConn (t : ThreadKind) {s : ServerState} (hcr : s.crashed = false) (fd : ℤ)
    (ipPort : Bytes) (setup : Setup) (now : ℤ) :
    Shrinks s (Threads.step t s (.newConn fd ipPort setup now)) ∨
      admits t setup ∧ ∃ c : Conn, c.ipPort = ipPort ∧
        (Threads.step t s (.newConn fd ipPort setup now)).conns = s.conns.insert c.fd c ∧
        (Threads.step t s (.newConn fd ipPort setup now)).deletingConnIpport =
          s.deletingConnIpport := by
  unfold Threads.step
  rw [if_neg (by simp [hcr])]
  dsimp only
  split_ifs
  · cases t with
    | worker =>
      cases setup with
      | null => exact .inl (.refl s)
      | blocking => exact .inl (.of_eq rfl rfl)
      | noSSL => exact .inl (.of_eq rfl rfl)
      | ok => exact .inr ⟨rfl, (s.newPinkConn fd ipPort now).1, rfl, rfl, rfl⟩
    | holy async =>
      dsimp only [HolyThread.handleNewConn]
      split_ifs with hnull
      · exact .inl (.of_eq rfl rfl)
      · exact .inr ⟨by simpa [admits] using hnull, (s.newPinkConn fd ipPort now).1, rfl, rfl, rfl⟩
  · exact .inl (.refl s)

theorem step_killConn (t : ThreadKind) {s : ServerState} (hcr : s.crashed = false)
    (ipPort : Bytes) :
    (s.tryKillConn t.isWorker ipPort).2 = false ∧
        Threads.step t s (.killConn ipPort) = s ∨
      (s.tryKillConn t.isWorker ipPort).2 = true ∧
        (Threads.step t s (.killConn ipPort)).conns = s.conns ∧
        (Threads.step t s (.killConn ipPort)).deletingConnIpport =
          insert ipPort s.deletingConnIpport := by
  unfold Threads.step
  rw [if_neg (by simp [hcr])]
  dsimp only [ServerState.tryKillConn]
  split_ifs
  · exact .inr ⟨rfl, rfl, rfl⟩
  · split
    · exact .inl ⟨rfl, rfl⟩
    · exact .inr ⟨rfl, rfl, rfl⟩

/-- **Every step keeps the invariant**, if the connection that enters is not marked. -/
theorem inv_step (t : ThreadKind) {s : State} {op : Op} (h : Inv s) (hop : Unmarked t s op) :
    Inv (step t s op) := by
  unfold step
  split_ifs with hcr
  · exact h
  rw [Bool.not_eq_true] at hcr
  cases op with
  | thread op =>
    dsimp only
    -- a step that adds no mark and no connection
    have hshrink : Shrinks s.server (Threads.step t s.server op) →
        (∀ c ∈ killedBy t.isWorker s.server op, c ∈ s.meant) →
        Inv { s with
          server := Threads.step t s.server op
          meant := s.meant ++ meantBy t.isWorker s.server op
          killed := s.killed ++ killedBy t.isWorker s.server op } := by
      intro hs hk
      refine h.of_shrinks hs (List.subset_append_left _ _) fun c hc => List.mem_append_left _ ?_
      exact (List.mem_append.mp hc).elim (h.killed c) (hk c)
    have hno : ∀ c ∈ ([] : List Conn), c ∈ s.meant := fun c hc => absurd hc List.not_mem_nil
    cases op with
    | newConn fd ipPort setup now =>
      rcases step_newConn t hcr fd ipPort setup now with hs | ⟨ha, c, rfl, hc, hd⟩
      · exact hshrink hs hno
      · exact h.enter hc hd (by simp [meantBy]) (by simp [killedBy]) fun hm => absurd hm (hop ha)
    | killConn ipPort =>
      rcases step_killConn t hcr ipPort with ⟨hf, hs⟩ | ⟨hf, hc, hd⟩
      · exact hshrink (.of_eq (by rw [hs]) (by rw [hs])) hno
      · exact h.mark hc hd (by simp [meantBy, hf]) (by simp [killedBy])
    | killAllConns =>
      have hs : Threads.step t s.server .killAllConns =
          markAddress s.server kKillAllConnsTask := by
        simp [Threads.step, hcr, ServerState.tryKillConn, markAddress]
      exact h.mark (by rw [hs]; rfl) (by rw [hs]; rfl) rfl (by simp [killedBy])
    | cron now =>
      refine hshrink (step_shrinks t hcr _ (by simp) (by simp) (by simp)) fun c hc => ?_
      obtain ⟨⟨fd, hfd⟩, hm⟩ := mem_toClose hc
      exact h.marked fd c hfd hm
    | event c mask o now => exact hshrink (step_shrinks t hcr _ (by simp) (by simp) (by simp)) hno
    | notiClose fd => exact hshrink (step_shrinks t hcr _ (by simp) (by simp) (by simp)) hno
    | moveConnOut fd => exact hshrink (step_shrinks t hcr _ (by simp) (by simp) (by simp)) hno
    | cleanup => exact hshrink (step_shrinks t hcr _ (by simp) (by simp) (by simp)) hno
  | moveConnIn conn success =>
    dsimp only
    split_ifs
    · exact h.enter rfl rfl rfl rfl hop
    · exact h
  | find ipPort =>
    dsimp only
    split
    · exact h
    case _ server hf =>
      have hs : Shrinks s.server server := by
        unfold findConn at hf
        split_ifs at hf
        · exact Option.some.inj hf ▸ .refl _
        · obtain ⟨p, -, rfl⟩ := Option.map_eq_some_iff.mp hf
          exact .of_eq rfl rfl
      exact h.of_shrinks hs (List.Subset.refl _) h.killed
  | mark ipPort =>
    dsimp only
    split_ifs
    · exact h.mark rfl rfl rfl rfl
    · exact h

theorem inv_start (timeout : ℤ) : Inv { server := { keepaliveTimeout := timeout } } :=
  ⟨fun fd c h => absurd (Std.ExtTreeMap.getElem?_empty.symm.trans h) (by simp),
    fun c hc => absurd hc List.not_mem_nil⟩

/-- **A kill does not hit a later connection**, in every run in which no connection that no kill was
for enters `conns` while its address is marked. -/
theorem killed_of_marked (t : ThreadKind) (timeout : ℤ) {ops : List Op}
    (h : Guarded (step t) (Unmarked t) { server := { keepaliveTimeout := timeout } } ops) :
    OnlyMeant (run (step t) { server := { keepaliveTimeout := timeout } } ops) :=
  (run_inv Inv (fun _ _ hs hop => inv_step t hs hop) (inv_start timeout) h).killed

/-- A kill in two sections with an event of its connection in between, the cron tick that closes
it, and a new connection from the same address. -/
def killRun : List Op :=
  [.thread (.newConn 7 (bytes "a:1") .ok 0), .find (bytes "a:1"),
    .thread (.event ⟨0, 7, bytes "a:1"⟩ { epollin := true } {} 1), .mark (bytes "a:1"),
    .thread (.cron 2), .thread (.newConn 7 (bytes "a:1") .ok 3), .thread (.cron 4)]

theorem killed_killRun :
    OnlyMeant (run (step (.holy true)) { server := { keepaliveTimeout := 60 } } killRun) :=
  killed_of_marked (.holy true) 60 (by decide +kernel)

/-- After the kill the connection of the worker is moved out, that of the holy thread hangs up; the
next one from the address is killed. -/
theorem later_conn_killed :
    ¬OnlyMeant (run (step .worker) { server := { keepaliveTimeout := 60 } }
      [.thread (.newConn 7 (bytes "a:1") .ok 0), .thread (.killConn (bytes "a:1")),
        .thread (.moveConnOut 7), .thread (.newConn 7 (bytes "a:1") .ok 1), .thread (.cron 2)]) ∧
    ¬OnlyMeant (run (step (.holy false)) { server := { keepaliveTimeout := 60 } }
      [.thread (.newConn 7 (bytes "a:1") .ok 0), .thread (.killConn (bytes "a:1")),
        .thread (.event ⟨0, 7, bytes "a:1"⟩ { epollhup := true } {} 1),
        .thread (.newConn 7 (bytes "a:1") .ok 2), .thread (.cron 3)]) := by
  constructor
  · decide +kernel
  · decide +kernel

end Pink.Server.Kills
