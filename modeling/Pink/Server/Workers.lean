import Pink.Server.Dispatch

/-! # The descriptors of a worker

What the steps of a worker, and the steps of others on it, do to the descriptors that are with it:
those of the new connections in its pipe, those in its map, and those of the vectors `to_close` and
`to_timeout`. Between the `close` of an event and the `conns_.erase(fd)` behind it, in which other
threads get at the map, the connection is still there but its descriptor is not; `settle` is the map
without it, and it is for `settle` that the worker keeps the account of its connections
(`WorkerInv`).

A step is described by `Works p q`: the worker gets the descriptors of `p` and gives away those of
`q`, and a connection that has its number but has not entered the map is left alone. -/

namespace Pink.Server.Workers

open Pink.Redis.Wire Pink.Lib.Runs Pink.Server.Conns Pink.Server.Dispatch
open Pink.Server.Dispatch.DispatchThread
open Pink.Server.Threads (Setup Mask Outcome)
open Pink.Server.Threads.WorkerThread (closes touches)

/-! ### The descriptors of a map -/

section Fds
variable {s t : ServerState} {c : Conn} {fd : ℤ} {pending : List Conn}

/-- The descriptors in the map. -/
def fds (s : ServerState) : List ℤ := s.conns.keys

theorem count_fds (s : ServerState) (fd : ℤ) :
    (fds s).count fd = if fd ∈ s.conns then 1 else 0 := by
  unfold fds
  rw [Std.ExtTreeMap.nodup_keys.count]
  simp only [Std.ExtTreeMap.mem_keys]

theorem mem_conns (h : s.conns[fd]? = some c) : fd ∈ s.conns := by
  rw [Std.ExtTreeMap.mem_iff_isSome_getElem?, h]
  rfl

theorem count_fds_erase (h : s.conns[fd]? = some c) (x : ℤ) :
    (fds s).count x = (fds (s.erase fd)).count x + [fd].count x := by
  have hmem := mem_conns h
  rw [count_fds, count_fds, List.count_singleton]
  unfold ServerState.erase
  simp only [Std.ExtTreeMap.mem_erase, Std.compare_eq_iff_eq, beq_iff_eq, ne_eq]
  by_cases hx : fd = x
  · subst hx; simp [hmem]
  · simp [hx]

theorem count_fds_insert (h : fd ∉ s.conns) (hs : t.conns = s.conns.insert fd c) (x : ℤ) :
    (fds t).count x = (fds s).count x + [fd].count x := by
  rw [count_fds, count_fds, List.count_singleton, hs]
  simp only [Std.ExtTreeMap.mem_insert, Std.compare_eq_iff_eq, beq_iff_eq]
  by_cases hx : fd = x
  · subst hx; simp [h]
  · simp [hx]

/-- The loop of `DoCronTask` moves descriptors from the map to its vectors. -/
theorem count_cronLoop (worker : Bool) (now x : ℤ) : ∀ (rest : List (ℤ × Conn)) (s : ServerState)
    (toClose toTimeout : List Conn), (rest.map Prod.fst).Nodup →
    (∀ p ∈ rest, s.conns[p.1]? = some p.2 ∧ p.2.fd = p.1) →
    let r := ServerState.cronLoop worker now rest s toClose toTimeout
    (fds r.1).count x + ((r.2.1 ++ r.2.2).map Conn.fd).count x =
      (fds s).count x + ((toClose ++ toTimeout).map Conn.fd).count x := by
  intro rest
  induction rest with
  | nil => exact fun _ _ _ _ _ => rfl
  | cons p rest ih =>
    obtain ⟨fd, conn⟩ := p
    intro s toClose toTimeout hnd hin
    obtain ⟨hnot, hnd⟩ := List.nodup_cons.mp hnd
    obtain ⟨hconn, hfd⟩ := hin (fd, conn) List.mem_cons_self
    have hrest : ∀ p ∈ rest, (s.erase fd).conns[p.1]? = some p.2 ∧ p.2.fd = p.1 := by
      intro p hp
      have hne : fd ≠ p.1 := fun he => hnot (List.mem_map.mpr ⟨p, hp, he.symm⟩)
      obtain ⟨h1, h2⟩ := hin p (List.mem_cons_of_mem _ hp)
      unfold ServerState.erase
      rw [Std.ExtTreeMap.getElem?_erase, if_neg (fun he => hne (Std.compare_eq_iff_eq.mp he))]
      exact ⟨h1, h2⟩
    have herase : (fds s).count x = (fds (s.erase fd)).count x + [fd].count x :=
      count_fds_erase hconn x
    dsimp only at hfd
    unfold ServerState.cronLoop
    split_ifs
    · have hih := ih { s.erase fd with
          deletingConnIpport := s.deletingConnIpport.erase conn.ipPort
          waitingDel := s.delayedDel worker conn } (toClose ++ [conn]) toTimeout hnd hrest
      refine hih.trans ?_
      simp only [List.map_append, List.count_append, List.map_cons, List.map_nil, hfd]
      unfold fds at herase ⊢
      dsimp only at herase ⊢
      omega
    · refine (ih (s.erase fd) toClose (toTimeout ++ [conn]) hnd hrest).trans ?_
      simp only [List.map_append, List.count_append, List.map_cons, List.map_nil, hfd]
      omega
    · exact ih s toClose toTimeout hnd fun p hp => hin p (List.mem_cons_of_mem _ hp)

theorem cronLoop_same (worker : Bool) (now : ℤ) : ∀ (rest : List (ℤ × Conn)) (s : ServerState)
    (toClose toTimeout : List Conn),
    let t := (ServerState.cronLoop worker now rest s toClose toTimeout).1
    t.nextId = s.nextId ∧ t.entered = s.entered ∧ t.closed = s.closed ∧ t.handled = s.handled ∧
      t.crashed = s.crashed := by
  intro rest
  induction rest with
  | nil => exact fun _ _ _ => ⟨rfl, rfl, rfl, rfl, rfl⟩
  | cons p rest ih =>
    intro s toClose toTimeout
    unfold ServerState.cronLoop
    split_ifs
    · exact ih _ _ _
    · exact ih _ _ _
    · exact ih _ _ _

theorem toList_conns (h : s.Inv []) :
    ∀ p ∈ s.conns.toList, s.conns[p.1]? = some p.2 ∧ p.2.fd = p.1 := by
  intro p hp
  have hget := Std.ExtTreeMap.mem_toList_iff_getElem?_eq_some.mp hp
  exact ⟨hget, h.key p.1 p.2 hget⟩

theorem registered_has (h : s.Inv []) (hc : c ∈ s.registered) : s.Has c :=
  (h.registered c hc).resolve_right List.not_mem_nil

/-- The epoll set only matters for what it holds. -/
theorem inv_registered (h : s.Inv pending) {r : Finset Conn} (hr : ∀ c ∈ r, s.Has c) :
    ({ s with registered := r } : ServerState).Inv pending :=
  ⟨h.key, h.fresh, h.live, h.left, h.moved, h.waiting, h.nodup, fun c hc => Or.inl (hr c hc)⟩

/-! ### Connections that are still to enter -/

/-- A connection has got its number and has not been in the map. -/
structure Unused (s : ServerState) (c : Conn) : Prop where
  id : c.id < s.nextId
  entered : c ∉ s.entered
  closed : c ∉ s.closed
  handled : c ∉ s.handled

theorem Unused.closeFd (h : Unused s c) {c' : Conn} (hne : c ≠ c') : Unused (s.closeFd c') c where
  id := h.id
  entered := h.entered
  closed := by simp [ServerState.closeFd, h.closed, hne]
  handled := by simp [ServerState.closeFd, h.handled, hne]

theorem Unused.put (h : Unused s c) {c' : Conn} (hne : c ≠ c') : Unused (put s c') c where
  id := h.id
  entered := by simp [Dispatch.put, h.entered, hne]
  closed := h.closed
  handled := h.handled

theorem has_put {c' : Conn} : (put s c).Has c' ↔ if c'.fd = c.fd then c' = c else s.Has c' :=
  ServerState.has_enter

/-- A connection enters the map. -/
theorem inv_put (h : s.Inv pending) (hfd : c.fd ∉ s.conns) (hc : Unused s c) :
    (put s c).Inv pending := by
  have hnm : c ∉ s.moved := fun hm => hc.entered (h.moved c hm)
  have hnp : c ∉ pending := fun hp => hc.entered (h.waiting c hp).1
  have hnot : ∀ c', s.Has c' → c'.fd ≠ c.fd := fun c' hc' he => hfd (he ▸ mem_conns hc')
  have hkeep : ∀ c', s.Has c' → (put s c).Has c' := by
    intro c' hc'
    rw [has_put, if_neg (hnot c' hc')]
    exact hc'
  refine ⟨fun fd c' hc' => ?_, fun c' hc' => ?_, fun c' hc' => ?_, fun c' hc' hn => ?_,
    fun c' hc' => List.mem_append_left _ (h.moved c' hc'), fun c' hc' => ?_, h.nodup,
    fun c' hc' => (h.registered c' hc').imp_left (hkeep c')⟩
  · unfold put at hc'
    rw [Std.ExtTreeMap.getElem?_insert] at hc'
    split_ifs at hc' with he
    · rw [← Option.some.inj hc']; exact Std.compare_eq_iff_eq.mp he
    · exact h.key fd c' hc'
  · rcases hc' with hc' | hc'
    · rcases List.mem_append.mp hc' with hc' | hc'
      · exact h.fresh c' (Or.inl hc')
      · rw [List.mem_singleton.mp hc']; exact hc.id
    · exact h.fresh c' (Or.inr hc')
  · rw [has_put] at hc'
    split_ifs at hc' with he
    · subst hc'
      exact ⟨List.mem_append_right _ (List.mem_singleton_self _), hnm, hc.closed, hc.handled⟩
    · obtain ⟨h1, h2⟩ := h.live c' hc'
      exact ⟨List.mem_append_left _ h1, h2⟩
  · rcases List.mem_append.mp hc' with hc' | hc'
    · exact h.left c' hc' fun hh => hn (hkeep c' hh)
    · obtain rfl := List.mem_singleton.mp hc'
      exact absurd (has_put.mpr (by simp)) hn
  · obtain ⟨h1, h2, h3⟩ := h.waiting c' hc'
    refine ⟨List.mem_append_left _ h1, fun hh => ?_, h3⟩
    rw [has_put] at hh
    split_ifs at hh with he
    · exact hnp (hh ▸ hc')
    · exact h2 hh

end Fds

/-! ### A worker -/

/-- What concerns other things than the connections of the map changes. -/
structure Same (s t : ServerState) : Prop where
  conns : t.conns = s.conns
  nextId : s.nextId ≤ t.nextId
  entered : t.entered = s.entered
  moved : t.moved = s.moved
  closed : t.closed = s.closed
  handled : t.handled = s.handled
  registered : t.registered = s.registered
  crashed : t.crashed = s.crashed

/-- The map without the connection that is closed and still to be erased. -/
def settle : WorkerPc → ServerState → ServerState
  | .erasing fd, s => s.erase fd
  | .top, s | .adding _, s | .closing _ _ _, s | .exited, s => s

/-- The connections of `to_close` and `to_timeout`. -/
def vectors : WorkerPc → List Conn
  | .closing toClose toTimeout _ => toClose ++ toTimeout
  | .top | .adding _ | .erasing _ | .exited => []

/-- Whether a connection is closed and still to be erased. -/
def lateIn : WorkerPc → ℕ
  | .erasing _ => 1
  | .top | .adding _ | .closing _ _ _ | .exited => 0

/-- The descriptors of the new connections in the pipe of a worker. -/
def fresh (w : Worker) : List ℤ :=
  (w.pipe.filter fun ti => ti.notifyType = .kNotiConnect).map PinkItem.fd

/-- The descriptors that are with a worker. -/
def held (w : Worker) : List ℤ :=
  fresh w ++ fds (settle w.pc w.state) ++ (vectors w.pc).map Conn.fd

/-- The account of a worker. -/
structure WorkerInv (w : Worker) : Prop where
  account : (settle w.pc w.state).Inv (vectors w.pc)
  alive : w.state.crashed = false
  fired : ∀ c ∈ w.fired, (settle w.pc w.state).Has c
  nodup : w.fired.Nodup
  adding : ∀ tc, w.pc = .adding tc → w.state.Has tc
  erasing : ∀ fd, w.pc = .erasing fd → fd ∈ w.state.conns

/-- A step from `w` to `w'`, in which the worker gets the descriptors of `p` and gives away those of
`q`. -/
structure Works (p q : List ℤ) (w w' : Worker) : Prop where
  inv : WorkerInv w'
  count : ∀ x, (held w).count x + p.count x = (held w').count x + q.count x
  unused : ∀ c, Unused w.state c → c.fd ∉ p → Unused w'.state c

section Worker
variable {w w' : Worker} {s t : ServerState} {c : Conn} {p q : List ℤ} {pending : List Conn}

theorem Same.refl (s : ServerState) : Same s s :=
  ⟨rfl, le_rfl, rfl, rfl, rfl, rfl, rfl, rfl⟩

theorem Same.has (h : Same s t) : t.Has c ↔ s.Has c := by
  unfold ServerState.Has
  rw [h.conns]

theorem Same.inv (h : Same s t) (hs : s.Inv pending) : t.Inv pending := by
  refine ⟨h.conns ▸ hs.key, fun c hc => ?_, ?_, ?_, ?_, ?_, hs.nodup, ?_⟩
  · rw [h.entered, h.closed, h.handled] at hc
    exact (hs.fresh c hc).trans_le h.nextId
  · simp only [h.has, h.entered, h.moved, h.closed, h.handled]; exact hs.live
  · simp only [h.has, h.entered, h.moved, h.closed, h.handled]; exact hs.left
  · rw [h.moved, h.entered]; exact hs.moved
  · simp only [h.has, h.entered, h.moved, h.closed, h.handled]; exact hs.waiting
  · simp only [h.has, h.registered]; exact hs.registered

theorem Same.unused (h : Same s t) (hc : Unused s c) : Unused t c where
  id := hc.id.trans_le h.nextId
  entered := by rw [h.entered]; exact hc.entered
  closed := by rw [h.closed]; exact hc.closed
  handled := by rw [h.handled]; exact hc.handled

theorem Same.settle (h : Same s t) (pc : WorkerPc) : Same (settle pc s) (settle pc t) := by
  cases pc with
  | erasing fd =>
    exact ⟨congrArg (fun conns => conns.erase fd) h.conns, h.nextId, h.entered, h.moved, h.closed,
      h.handled, h.registered, h.crashed⟩
  | top => exact h
  | adding tc => exact h
  | closing toClose toTimeout exits => exact h
  | exited => exact h

theorem count_held (w : Worker) (x : ℤ) : (held w).count x = (fresh w).count x +
    (fds (settle w.pc w.state)).count x + ((vectors w.pc).map Conn.fd).count x := by
  unfold held
  rw [List.count_append, List.count_append]

theorem fresh_of_pipe (h : w'.pipe = w.pipe) : fresh w' = fresh w := by
  unfold fresh
  rw [h]

theorem fresh_cons {ti : PinkItem} {pipe : List PinkItem} (hp : w.pipe = ti :: pipe)
    (hp' : w'.pipe = pipe) (x : ℤ) : (fresh w).count x = (fresh w').count x +
      (if ti.notifyType = .kNotiConnect then [ti.fd] else []).count x := by
  unfold fresh
  rw [hp, hp', List.filter_cons]
  by_cases hc : ti.notifyType = .kNotiConnect
  · simp only [hc, decide_true, if_true, List.map_cons]
    rw [List.count_cons, List.count_singleton]
  · simp [hc]

/-- Nothing changes for the connections. -/
theorem WorkerInv.same (h : WorkerInv w) (hs : Same w.state w'.state) (hpc : w'.pc = w.pc)
    (hp : ∀ x, (fresh w).count x + p.count x = (fresh w').count x + q.count x)
    (hf : ∀ c ∈ w'.fired, c ∈ w.fired) (hn : w'.fired.Nodup) : Works p q w w' := by
  have hset := hs.settle w.pc
  refine ⟨⟨?_, hs.crashed.trans h.alive, fun c hc => ?_, hn, fun tc hpc' => ?_,
    fun fd hpc' => ?_⟩, fun x => ?_, fun c hc _ => hs.unused hc⟩
  · rw [hpc]
    exact hset.inv h.account
  · rw [hpc, hset.has]
    exact h.fired c (hf c hc)
  · rw [hs.has]
    exact h.adding tc (hpc.symm.trans hpc')
  · rw [hs.conns]
    exact h.erasing fd (hpc.symm.trans hpc')
  · have hx := hp x
    have hfds : fds (settle w.pc w'.state) = fds (settle w.pc w.state) := by
      unfold fds
      rw [hset.conns]
    rw [count_held, count_held, hpc, hfds]
    omega

theorem WorkerInv.stays (h : WorkerInv w) : Works [] [] w w :=
  h.same (Same.refl _) rfl (fun _ => rfl) (fun _ hc => hc) h.nodup

theorem WorkerInv.setState (h : WorkerInv w) (hs : Same w.state t) :
    Works [] [] w { w with state := t } :=
  h.same hs rfl (fun _ => rfl) (fun _ hc => hc) h.nodup

/-- The connections of the epoll set change, among those of the map. -/
theorem WorkerInv.watch (h : WorkerInv w) (hpc : ∀ s, settle w.pc s = s) (hv : vectors w.pc = [])
    {r : Finset Conn} (hr : ∀ c ∈ r, w.state.Has c)
    (hs : w'.state = { w.state with registered := r }) (htop : w'.pc = .top)
    (hp : fresh w' = fresh w) (hf : w'.fired = w.fired) : Works [] [] w w' := by
  have hinv := h.account
  have hfired := h.fired
  rw [hpc] at hfired
  rw [hpc, hv] at hinv
  refine ⟨⟨?_, by rw [hs]; exact h.alive, fun c hc => ?_, by rw [hf]; exact h.nodup,
    fun tc he => ?_, fun fd he => ?_⟩, fun x => ?_, fun c hc _ => ?_⟩
  · rw [htop, hs]
    exact inv_registered hinv hr
  · rw [hf] at hc
    rw [htop, hs]
    exact hfired c hc
  · rw [htop] at he
    cases he
  · rw [htop] at he
    cases he
  · rw [count_held, count_held, htop, hp, hs, hpc, hv]
    rfl
  · rw [hs]
    exact ⟨hc.id, hc.entered, hc.closed, hc.handled⟩

/-! ### The steps of a worker -/

theorem WorkerInv.inv_top (h : WorkerInv w) (htop : w.pc = .top) : w.state.Inv [] := by
  have hinv := h.account
  rw [htop] at hinv
  exact hinv

theorem WorkerInv.has_fired (h : WorkerInv w) (htop : w.pc = .top) (hc : c ∈ w.fired) :
    w.state.Has c := by
  have hhas := h.fired c hc
  rw [htop] at hhas
  exact hhas

theorem addEvent_eq {opened : Finset ℤ} (h : s.Inv []) (hc : s.Has c ∨ c.fd ∉ opened) :
    ∃ r, addEvent opened s c = { s with registered := r } ∧ ∀ c ∈ r, s.Has c := by
  unfold addEvent
  split_ifs with hno
  · exact ⟨s.registered, rfl, fun c hc => registered_has h hc⟩
  · rw [not_or, not_not] at hno
    have hhas := hc.resolve_right (not_not.mpr hno.1)
    refine ⟨_, rfl, fun c' hc' => ?_⟩
    rcases Finset.mem_insert.mp hc' with rfl | hc'
    · exact hhas
    · exact registered_has h hc'

theorem modEvent_eq {opened : Finset ℤ} (h : s.Inv []) (hc : s.Has c ∨ c.fd ∉ opened)
    (hopen : ∀ fd ∈ s.conns, fd ∈ opened) :
    ∃ r, modEvent s c = { s with registered := r } ∧ ∀ c ∈ r, s.Has c := by
  unfold modEvent
  split_ifs with hin
  · -- the descriptor is in the map, so that it is open
    obtain ⟨c', hc', hfd⟩ := hin
    have hhas := hc.resolve_right
      (not_not.mpr (hopen c.fd (hfd ▸ mem_conns (registered_has h hc'))))
    refine ⟨_, rfl, fun c'' hc'' => ?_⟩
    rcases Finset.mem_insert.mp hc'' with rfl | hc''
    · exact hhas
    · exact registered_has h (Finset.mem_of_mem_filter c'' hc'')
  · exact ⟨s.registered, rfl, fun c hc => registered_has h hc⟩

/-- The numbers of the connections are given out in turn. -/
theorem WorkerInv.id_lt (h : WorkerInv w)
    (hc : c ∈ w.state.entered ∨ c ∈ w.state.closed ∨ c ∈ w.state.handled) :
    c.id < w.state.nextId := by
  have hfresh := h.account.fresh c
  cases hpc : w.pc <;> rw [hpc] at hfresh <;> exact hfresh hc

/-- A new connection has not been in the map. -/
theorem WorkerInv.unused_new (h : WorkerInv w) (fd : ℤ) (ipPort : Bytes) (now : ℤ) :
    Unused (w.state.newPinkConn fd ipPort now).2 (w.state.newPinkConn fd ipPort now).1 := by
  have hnew : ∀ c, c ∈ w.state.entered ∨ c ∈ w.state.closed ∨ c ∈ w.state.handled →
      c ≠ (w.state.newPinkConn fd ipPort now).1 := by
    rintro c hc rfl
    exact absurd (h.id_lt hc) (lt_irrefl _)
  exact ⟨Nat.lt_succ_self _, fun hc => hnew _ (Or.inl hc) rfl,
    fun hc => hnew _ (Or.inr (Or.inl hc)) rfl, fun hc => hnew _ (Or.inr (Or.inr hc)) rfl⟩

theorem same_newPinkConn (s : ServerState) (fd : ℤ) (ipPort : Bytes) (now : ℤ) :
    Same s (s.newPinkConn fd ipPort now).2 :=
  ⟨rfl, Nat.le_succ _, rfl, rfl, rfl, rfl, rfl, rfl⟩

theorem Unused.ne_new (hc : Unused s c) (fd : ℤ) (ipPort : Bytes) (now : ℤ) :
    c ≠ (s.newPinkConn fd ipPort now).1 := by
  rintro rfl
  exact absurd hc.id (lt_irrefl _)

/-- A new connection goes into the map, is closed, or is lost. -/
theorem WorkerInv.handleConnect (h : WorkerInv w) (htop : w.pc = .top) {ti : PinkItem}
    {pipe : List PinkItem} (hp : w.pipe = ti :: pipe) (hty : ti.notifyType = .kNotiConnect)
    (hfd : ti.fd ∉ w.state.conns) (setup : Setup) (now : ℤ) (hw : w'.pipe = pipe)
    (hs : w'.state = w.state) (hpc : w'.pc = w.pc) (hf : w'.fired = w.fired) :
    Works [] ((w'.handleConnect ti setup now).2 ++ if leaves setup then [ti.fd] else []) w
      (w'.handleConnect ti setup now).1 := by
  have hfresh : ∀ x, (fresh w).count x = (fresh w').count x + [ti.fd].count x := by
    intro x
    have hx := fresh_cons hp hw x
    rw [if_pos hty] at hx
    exact hx
  have hinv := h.inv_top htop
  have hnew := same_newPinkConn w.state ti.fd ti.ipPort now
  have htc := h.unused_new ti.fd ti.ipPort now
  have hne : ∀ c, Unused w.state c → c ≠ (w.state.newPinkConn ti.fd ti.ipPort now).1 :=
    fun c hc => hc.ne_new _ _ _
  have htcfd : (w.state.newPinkConn ti.fd ti.ipPort now).1.fd = ti.fd := rfl
  unfold Worker.handleConnect
  rw [hs]
  generalize w.state.newPinkConn ti.fd ti.ipPort now = r at hnew htc hne htcfd ⊢
  obtain ⟨tc, s⟩ := r
  dsimp only at hnew htc hne htcfd ⊢
  rw [← htcfd] at hfd hfresh ⊢
  cases setup with
  | null =>
    refine h.same ?_ hpc hfresh (by rw [hf]; exact fun _ hc => hc) (by rw [hf]; exact h.nodup)
    rw [hs]
    exact Same.refl _
  | blocking =>
    exact h.same hnew hpc hfresh (by rw [hf]; exact fun _ hc => hc) (by rw [hf]; exact h.nodup)
  | noSSL =>
    dsimp only
    refine ⟨⟨?_, hnew.crashed.trans h.alive, fun c hc => ?_, by rw [hf]; exact h.nodup,
      fun _ he => ?_, fun _ he => ?_⟩, fun x => ?_, fun c hc _ => ?_⟩
    · rw [hpc, htop]
      exact Threads.inv_closeFd_new (hnew.inv hinv) htc.id htc.entered
    · rw [hpc, htop]
      exact hnew.has.mpr (h.has_fired htop (hf ▸ hc))
    · rw [hpc, htop] at he
      cases he
    · rw [hpc, htop] at he
      cases he
    · have hx := hfresh x
      rw [count_held, count_held, hpc, htop]
      unfold fresh at hx ⊢
      rw [hx]
      unfold settle fds vectors
      simp only [ServerState.closeFd, hnew.conns, List.map_nil, List.count_nil, leaves,
        Bool.false_eq_true, if_false, List.append_nil]
      omega
    · exact (hnew.unused hc).closeFd (hne c hc)
  | ok =>
    dsimp only
    have hnot : tc.fd ∉ s.conns := by rw [hnew.conns]; exact hfd
    have hhas : ∀ c, w.state.Has c → (put s tc).Has c := by
      intro c hc
      have hne' : c.fd ≠ tc.fd := fun he => hfd (he ▸ mem_conns hc)
      rw [has_put, if_neg hne', hnew.has]
      exact hc
    refine ⟨⟨?_, hnew.crashed.trans h.alive, fun c hc => hhas c (h.has_fired htop (hf ▸ hc)),
      by rw [hf]; exact h.nodup, fun _ he => ?_, fun _ he => by cases he⟩, fun x => ?_,
      fun c hc _ => (hnew.unused hc).put (hne c hc)⟩
    · exact inv_put (hnew.inv hinv) hnot htc
    · obtain rfl := WorkerPc.adding.inj he
      exact has_put.mpr (by simp)
    · have hins := count_fds_insert (t := put s tc) hnot rfl x
      have hx := hfresh x
      rw [count_held, count_held, htop]
      unfold fresh at hx ⊢
      rw [hx]
      unfold settle vectors
      dsimp only
      rw [hins]
      unfold fds
      rw [hnew.conns]
      simp only [List.map_nil, List.count_nil, leaves, Bool.false_eq_true, if_false,
        List.append_nil]
      omega

/-- The worker looks at the connection of an item. -/
def watches : NotifyType → Bool
  | .kNotiWait | .kNotiEpollout | .kNotiEpollin | .kNotiEpolloutAndEpollin => true
  | .kNotiConnect | .kNotiClose | .kNotiWrite => false

/-- The connection of an item is in the map, or its descriptor has not been used again. -/
def Timely (opened : Finset ℤ) (w : Worker) (ti : PinkItem) : Prop :=
  watches ti.notifyType → ∀ c ∈ ti.conn, w.state.Has c ∨ c.fd ∉ opened

instance (opened : Finset ℤ) (w : Worker) (ti : PinkItem) : Decidable (Timely opened w ti) :=
  inferInstanceAs (Decidable (_ → _))

theorem WorkerInv.handleItem (h : WorkerInv w) {opened : Finset ℤ}
    (hopen : ∀ fd ∈ (settle w.pc w.state).conns, fd ∈ opened)
    (hnew : ∀ fd ∈ fresh w, fd ∉ (settle w.pc w.state).conns)
    (ht : ∀ ti ∈ w.pipe.head?, Timely opened w ti) (setup : Setup) (now : ℤ) :
    Works [] ((w.handleItem opened setup now).2 ++ w.lost setup) w
      (w.handleItem opened setup now).1 := by
  unfold Worker.handleItem Worker.lost
  split
  case _ ti pipe htop hp =>
    rw [htop] at hopen hnew
    have hinv := h.inv_top htop
    have htime : Timely opened w ti := ht ti (by rw [hp]; rfl)
    by_cases hty : ti.notifyType = .kNotiConnect
    · have hfd : ti.fd ∉ w.state.conns := by
        refine hnew ti.fd ?_
        unfold fresh
        rw [hp, List.filter_cons_of_pos (by simpa using hty)]
        exact List.mem_cons_self
      simp only [hty, true_and]
      exact h.handleConnect htop hp hty hfd setup now rfl rfl rfl rfl
    have hlost : (if ti.notifyType = .kNotiConnect ∧ leaves setup = true then [ti.fd] else []) =
        [] := if_neg fun he => hty he.1
    have hwatch : ∀ w' : Worker, w'.pipe = pipe → w'.pc = .top → w'.fired = w.fired →
        (∃ r, w'.state = { w.state with registered := r } ∧ ∀ c ∈ r, w.state.Has c) →
        Works [] [] w w' := by
      rintro w' hw' htop' hf ⟨r, hs, hr⟩
      refine h.watch (by rw [htop]; exact fun _ => rfl) (by rw [htop]; rfl) hr hs htop' ?_ hf
      unfold fresh
      rw [hp, hw', List.filter_cons_of_neg (by simpa using hty)]
    have hadd : ∀ c, ti.conn = some c → watches ti.notifyType →
        ∃ r, addEvent opened w.state c = { w.state with registered := r } ∧
          ∀ c ∈ r, w.state.Has c := fun c hc hw => addEvent_eq hinv (htime hw c hc)
    have hmod : ∀ c, ti.conn = some c → watches ti.notifyType →
        ∃ r, modEvent w.state c = { w.state with registered := r } ∧
          ∀ c ∈ r, w.state.Has c := fun c hc hw => modEvent_eq hinv (htime hw c hc) hopen
    simp only [hlost, List.append_nil]
    split
    case _ he => exact absurd he hty
    case _ c hw hc => exact hwatch _ rfl htop rfl (hadd c hc (by rw [hw]; rfl))
    case _ c hw hc => exact hwatch _ rfl htop rfl (hmod c hc (by rw [hw]; rfl))
    case _ c hw hc => exact hwatch _ rfl htop rfl (hmod c hc (by rw [hw]; rfl))
    case _ c hw hc => exact hwatch _ rfl htop rfl (hmod c hc (by rw [hw]; rfl))
    · exact hwatch _ rfl htop rfl
        ⟨w.state.registered, rfl, fun c hc => registered_has hinv hc⟩
  · exact h.stays

theorem WorkerInv.add (h : WorkerInv w) (opened : Finset ℤ) : Works [] [] w (w.add opened) := by
  unfold Worker.add
  split
  case _ tc hpc =>
    have hset : ∀ s, settle w.pc s = s := by rw [hpc]; exact fun _ => rfl
    have hv : vectors w.pc = [] := by rw [hpc]; rfl
    have hinv := h.account
    rw [hset, hv] at hinv
    have htc : w.state.Has tc ∨ tc.fd ∉ opened := Or.inl (h.adding tc hpc)
    obtain ⟨r, hr, hrh⟩ := addEvent_eq hinv htc
    exact h.watch hset hv hrh hr rfl rfl rfl
  · exact h.stays

theorem WorkerInv.poll (h : WorkerInv w) (fired : List Conn) : Works [] [] w (w.poll fired) := by
  unfold Worker.poll
  split_ifs with hfired
  · obtain ⟨htop, -, hnd, hreg⟩ := hfired
    refine ⟨⟨h.account, h.alive, fun c hc => ?_, hnd, h.adding, h.erasing⟩, fun _ => rfl,
      fun _ hc _ => hc⟩
    rw [htop]
    exact registered_has (h.inv_top htop) (hreg c hc)
  · exact h.stays

/-- The connection of an event is closed, and is still to be erased. -/
theorem WorkerInv.closing (h : WorkerInv w) (htop : w.pc = .top) (hs : Same w.state s)
    (hc : w.state.Has c) (hw : w'.state = s.closeFd c) (hpc : w'.pc = .erasing c.fd)
    (hp : w'.pipe = w.pipe) (hf : ∀ c' ∈ w'.fired, c' ∈ w.fired ∧ c' ≠ c)
    (hn : w'.fired.Nodup) : Works [] [c.fd] w w' := by
  have hhas := hs.has.mpr hc
  have hinv := hs.inv (h.inv_top htop)
  have hset : settle w'.pc w'.state = (s.erase c.fd).closeFd c := by
    rw [hpc, hw]
    rfl
  refine ⟨⟨?_, ?_, fun c' hc' => ?_, hn, fun tc he => ?_, fun fd he => ?_⟩, fun x => ?_,
    fun c' hc' _ => ?_⟩
  · rw [hset, hpc]
    exact (hinv.drop hhas).close
  · rw [hw]
    exact hs.crashed.trans h.alive
  · obtain ⟨hin, hne⟩ := hf c' hc'
    have hhas' := h.has_fired htop hin
    rw [hset]
    exact ServerState.has_erase.mpr ⟨fun he => hne (hc.eq_of_fd hhas' he), hs.has.mpr hhas'⟩
  · rw [hpc] at he
    cases he
  · rw [hpc] at he
    obtain rfl := WorkerPc.erasing.inj he
    rw [hw]
    exact mem_conns hhas
  · have herase := count_fds_erase hhas x
    rw [count_held, count_held, hset, hpc, htop, fresh_of_pipe hp]
    unfold settle vectors fds at *
    rw [hs.conns] at herase
    simp only [ServerState.closeFd, List.map_nil, List.count_nil] at herase ⊢
    omega
  · have hent := (hinv.live c hhas).1
    rw [hw]
    exact (hs.unused hc').closeFd (by rintro rfl; exact (hs.unused hc').entered hent)

theorem WorkerInv.event (h : WorkerInv w) (hd : ∀ c ∈ w.fired.head?, c ∉ w.state.waitingDel)
    (mask : Mask) (o : Outcome) (now : ℤ) :
    Works [] (w.event mask o now).2 w (w.event mask o now).1 := by
  unfold Worker.event
  split
  case _ c fired htop hfired =>
    have hin : c ∈ w.fired := by rw [hfired]; exact List.mem_cons_self
    have hhas := h.has_fired htop hin
    have hnd : (c :: fired).Nodup := hfired ▸ h.nodup
    have hrest : ∀ c' ∈ fired, c' ∈ w.fired ∧ c' ≠ c := by
      intro c' hc'
      rw [hfired]
      refine ⟨List.mem_cons_of_mem _ hc', ?_⟩
      rintro rfl
      exact (List.nodup_cons.mp hnd).1 hc'
    have hs : Same w.state (if touches mask o then Threads.touch w.state c now else w.state) := by
      split_ifs
      · exact ⟨rfl, le_rfl, rfl, rfl, rfl, rfl, rfl, rfl⟩
      · exact Same.refl _
    dsimp only
    rw [if_neg (not_not.mpr hhas), if_neg (hd c (by rw [hfired]; rfl))]
    by_cases hcl : closes mask o
    · rw [if_pos hcl]
      exact h.closing htop hs hhas rfl rfl rfl hrest (List.nodup_cons.mp hnd).2
    · rw [if_neg hcl]
      exact h.same hs rfl (fun _ => rfl) (fun c' hc' => (hrest c' hc').1)
        (List.nodup_cons.mp hnd).2
  · exact h.stays

theorem WorkerInv.erase (h : WorkerInv w) : Works [] [] w w.erase := by
  unfold Worker.erase
  split
  case _ fd hpc =>
    have hset : settle w.pc w.state = w.state.erase fd := by rw [hpc]; rfl
    have hinv := h.account
    have hfired := h.fired
    rw [hset] at hinv hfired
    rw [hpc] at hinv
    refine ⟨⟨hinv, h.alive, hfired, h.nodup, fun _ he => ?_, fun _ he => ?_⟩, fun x => ?_,
      fun c hc _ => ⟨hc.id, hc.entered, hc.closed, hc.handled⟩⟩
    · cases he
    · cases he
    · rw [count_held, count_held, hset, hpc]
      rfl
  · exact h.stays

/-- The connections of the vectors leave the map. -/
theorem WorkerInv.collect (h : WorkerInv w) (htop : w.pc = .top) {toClose toTimeout : List Conn}
    {exits : Bool} (hs : s.Inv (toClose ++ toTimeout)) (hid : s.nextId = w.state.nextId)
    (hent : s.entered = w.state.entered) (hcl : s.closed = w.state.closed)
    (hhd : s.handled = w.state.handled) (hcr : s.crashed = w.state.crashed)
    (hc : ∀ x, (fds s).count x + ((toClose ++ toTimeout).map Conn.fd).count x =
      (fds w.state).count x) (hw : w'.state = s) (hpc : w'.pc = .closing toClose toTimeout exits)
    (hp : w'.pipe = w.pipe) (hf : w'.fired = []) : Works [] [] w w' := by
  refine ⟨⟨?_, ?_, ?_, ?_, fun tc he => ?_, fun fd he => ?_⟩, fun x => ?_, fun c hu _ => ?_⟩
  · rw [hpc, hw]
    exact hs
  · rw [hw, hcr]
    exact h.alive
  · simp [hf]
  · simp [hf]
  · rw [hpc] at he
    cases he
  · rw [hpc] at he
    cases he
  · have hx := hc x
    rw [count_held, count_held, hpc, hw, htop, fresh_of_pipe hp]
    unfold settle vectors
    simp only [List.map_nil, List.count_nil]
    omega
  · rw [hw]
    exact ⟨hid ▸ hu.id, hent ▸ hu.entered, hcl ▸ hu.closed, hhd ▸ hu.handled⟩

/-- The cron task, unless it drops connections. -/
theorem WorkerInv.doCronTask (h : WorkerInv w) (now : ℤ)
    (hk : kKillAllConnsTask ∈ w.state.deletingConnIpport → w.state.conns = ∅) :
    Works [] [] w (w.doCronTask now) := by
  unfold Worker.doCronTask
  split_ifs with hidle hkill
  · exact h.setState ⟨(hk hkill).symm, le_rfl, rfl, rfl, rfl, rfl, rfl, rfl⟩
  · obtain ⟨htop, hf⟩ := hidle
    have hinv := h.inv_top htop
    have hinv0 : w.state.Inv ([] ++ []) := hinv
    have hloop := ServerState.Inv.cronLoop true now hinv0 w.state.nodup_keys_conns fun p hp =>
      Std.ExtTreeMap.mem_toList_iff_getElem?_eq_some.mp hp
    have hcount := fun x => count_cronLoop true now x _ w.state [] [] w.state.nodup_keys_conns
      (toList_conns hinv)
    obtain ⟨h1, h2, h3, h4, h5⟩ := cronLoop_same true now w.state.conns.toList w.state [] []
    exact h.collect htop hloop h1 h2 h3 h4 h5 (fun x => hcount x) rfl rfl rfl hf
  · exact h.stays

theorem WorkerInv.cleanup (h : WorkerInv w) : Works [] [] w w.cleanup := by
  unfold Worker.cleanup
  split_ifs with hidle
  · obtain ⟨htop, hf⟩ := hidle
    have hinv := h.inv_top htop
    have hclear : ServerState.Inv (w.state.conns.toList.map Prod.snd ++ [])
        { w.state with conns := ∅ } := by
      rw [List.append_nil]
      exact hinv.clear
    refine h.collect htop hclear rfl rfl rfl rfl rfl (fun x => ?_) rfl rfl rfl hf
    have hempty : fds { w.state with conns := ∅ } = [] := Std.ExtTreeMap.keys_eq_nil_iff.mpr rfl
    rw [hempty, List.append_nil, List.map_map, List.count_nil, Nat.zero_add]
    unfold fds
    rw [← Std.ExtTreeMap.map_fst_toList_eq_keys]
    congr 1
    refine List.map_congr_left fun p hp => ?_
    exact (toList_conns hinv p hp).2
  · exact h.stays

/-- The next connection of the vectors is closed. -/
theorem WorkerInv.closed (h : WorkerInv w) {toClose toTimeout toClose' toTimeout' : List Conn}
    {exits : Bool} (hpc : w.pc = .closing toClose toTimeout exits)
    (hv : toClose ++ toTimeout = c :: (toClose' ++ toTimeout'))
    (hpc' : w'.pc = .closing toClose' toTimeout' exits) (hs : Same (w.state.closeFd c) w'.state)
    (hp : w'.pipe = w.pipe) (hf : w'.fired = w.fired) : Works [] [c.fd] w w' := by
  have hinv := h.account
  have hfired := h.fired
  rw [hpc] at hinv hfired
  unfold settle vectors at hinv
  dsimp only at hinv
  rw [hv] at hinv
  refine ⟨⟨?_, hs.crashed.trans h.alive, fun c' hc' => ?_, by rw [hf]; exact h.nodup,
    fun tc he => ?_, fun fd he => ?_⟩, fun x => ?_, fun c' hc' _ => ?_⟩
  · rw [hpc']
    exact hs.inv hinv.close
  · rw [hpc']
    exact hs.has.mpr (hfired c' (hf ▸ hc'))
  · rw [hpc'] at he
    cases he
  · rw [hpc'] at he
    cases he
  · rw [count_held, count_held, fresh_of_pipe hp, hpc, hpc']
    unfold settle vectors fds
    dsimp only
    rw [hs.conns, hv]
    simp only [ServerState.closeFd, List.map_cons, List.count_cons, List.count_nil]
    omega
  · have hent := (hinv.waiting c List.mem_cons_self).1
    exact hs.unused (hc'.closeFd (by rintro rfl; exact hc'.entered hent))

theorem WorkerInv.closeNext (h : WorkerInv w) : Works [] w.closeNext.2 w w.closeNext.1 := by
  unfold Worker.closeNext
  split
  case _ c toClose toTimeout exits hpc =>
    exact h.closed hpc rfl rfl (Same.refl _) rfl rfl
  case _ c toTimeout exits hpc =>
    exact h.closed hpc rfl rfl ⟨rfl, le_rfl, rfl, rfl, rfl, rfl, rfl, rfl⟩ rfl rfl
  case _ exits hpc =>
    have hinv := h.account
    have hfired := h.fired
    rw [hpc] at hinv hfired
    cases exits with
    | false =>
      refine ⟨⟨hinv, h.alive, hfired, h.nodup, fun _ he => ?_, fun _ he => ?_⟩, fun x => ?_,
        fun _ hc _ => hc⟩
      · cases he
      · cases he
      · rw [count_held, count_held, hpc]
        rfl
    | true =>
      refine ⟨⟨hinv, h.alive, hfired, h.nodup, fun _ he => ?_, fun _ he => ?_⟩, fun x => ?_,
        fun _ hc _ => hc⟩
      · cases he
      · cases he
      · rw [count_held, count_held, hpc]
        rfl
  · exact h.stays

/-- The connections in the map, those that wait in the pipe, and those of the vectors. -/
theorem WorkerInv.length_held (h : WorkerInv w) : (held w).length + lateIn w.pc =
    w.state.conns.size + ((fresh w).length + (vectors w.pc).length) := by
  have hsize : (fds (settle w.pc w.state)).length + lateIn w.pc = w.state.conns.size := by
    unfold fds
    rw [Std.ExtTreeMap.length_keys]
    cases hpc : w.pc with
    | erasing fd =>
      have hmem := h.erasing fd hpc
      have hpos : w.state.conns.size ≠ 0 := by
        intro hz
        have hempty := Std.ExtTreeMap.eq_empty_iff_size_eq_zero.mpr hz
        rw [hempty] at hmem
        exact Std.ExtTreeMap.not_mem_empty hmem
      unfold settle ServerState.erase lateIn
      dsimp only
      rw [Std.ExtTreeMap.size_erase, if_pos (Std.ExtTreeMap.mem_iff_contains.mp hmem)]
      omega
    | top => rfl
    | adding tc => rfl
    | closing toClose toTimeout exits => rfl
    | exited => rfl
  unfold held
  rw [List.length_append, List.length_append, List.length_map]
  omega

/-! ### What the other threads do with a worker -/

/-- An item goes into the pipe. -/
theorem WorkerInv.moveConnIn (h : WorkerInv w) (ti : PinkItem) :
    Works (if ti.notifyType = .kNotiConnect then [ti.fd] else []) [] w (w.moveConnIn ti).1 := by
  refine h.same (Same.refl _) rfl (fun x => ?_) (fun _ hc => hc) h.nodup
  unfold Worker.moveConnIn fresh
  rw [List.filter_append, List.map_append, List.count_append, List.filter_singleton]
  by_cases hty : ti.notifyType = .kNotiConnect
  · simp [hty]
  · simp [hty]

theorem WorkerInv.findKill (h : WorkerInv w) (ipPort : Bytes) :
    Works [] [] w (w.findKill ipPort).1 := by
  unfold Worker.findKill
  split_ifs
  · exact h.stays
  · split
    · exact h.stays
    · exact h.setState ⟨rfl, le_rfl, rfl, rfl, rfl, rfl, rfl, rfl⟩

theorem WorkerInv.insertKill (h : WorkerInv w) (ipPort : Bytes) :
    Works [] [] w (w.insertKill ipPort) :=
  h.setState ⟨rfl, le_rfl, rfl, rfl, rfl, rfl, rfl, rfl⟩

/-- A connection that is moved in gets its number. -/
theorem WorkerInv.renew (h : WorkerInv w) (m : Moved) :
    Works [] [] w { w with state := (renew w.state m).2 } :=
  h.setState ⟨rfl, Nat.le_succ _, rfl, rfl, rfl, rfl, rfl, rfl⟩

theorem WorkerInv.unused_renew (h : WorkerInv w) (m : Moved) :
    Unused (Dispatch.DispatchThread.renew w.state m).2
      (Dispatch.DispatchThread.renew w.state m).1 := by
  have hc := h.unused_new m.conn.fd m.conn.ipPort m.lastInteraction
  exact ⟨hc.id, hc.entered, hc.closed, hc.handled⟩

theorem settle_put {pc : WorkerPc} (hpc : pc ≠ .erasing c.fd) :
    settle pc (put s c) = put (settle pc s) c := by
  cases pc with
  | erasing fd =>
    have hne : fd ≠ c.fd := fun he => hpc (he ▸ rfl)
    have hconns : (s.conns.insert c.fd c).erase fd = (s.conns.erase fd).insert c.fd c := by
      ext1 x
      simp only [Std.ExtTreeMap.getElem?_erase, Std.ExtTreeMap.getElem?_insert,
        Std.compare_eq_iff_eq]
      by_cases hx : fd = x
      · subst hx
        simp [Ne.symm hne]
      · simp [hx]
    unfold settle put ServerState.erase
    dsimp only
    rw [hconns]
  | top => rfl
  | adding tc => rfl
  | closing toClose toTimeout exits => rfl
  | exited => rfl

/-- A connection that is moved in enters the map. -/
theorem WorkerInv.put (h : WorkerInv w) (hfd : c.fd ∉ (settle w.pc w.state).conns)
    (hc : Unused w.state c) (hpc : w.pc ≠ .erasing c.fd) :
    Works [c.fd] [] w { w with state := put w.state c } := by
  have hset := settle_put (s := w.state) hpc
  have hcs : Unused (settle w.pc w.state) c := by
    cases w.pc <;> exact ⟨hc.id, hc.entered, hc.closed, hc.handled⟩
  have hhas : ∀ c', (settle w.pc w.state).Has c' →
      (Dispatch.put (settle w.pc w.state) c).Has c' := by
    intro c' hc'
    have hne : c'.fd ≠ c.fd := fun he => hfd (he ▸ mem_conns hc')
    rw [has_put, if_neg hne]
    exact hc'
  refine ⟨⟨?_, h.alive, fun c' hc' => ?_, h.nodup, fun tc he => ?_, fun fd he => ?_⟩, fun x => ?_,
    fun c' hc' hne => hc'.put (by rintro rfl; exact hne (List.mem_singleton_self _))⟩
  · rw [hset]
    exact inv_put h.account hfd hcs
  · rw [hset]
    exact hhas c' (h.fired c' hc')
  · have htc := hhas tc
    dsimp only at he
    rw [he] at htc
    exact htc (h.adding tc he)
  · exact Std.ExtTreeMap.mem_insert.mpr (Or.inr (h.erasing fd he))
  · have hins := count_fds_insert (t := Dispatch.put (settle w.pc w.state) c) hfd rfl x
    have hfresh : fresh { w with state := Dispatch.put w.state c } = fresh w := rfl
    rw [count_held, count_held, hfresh, hset, hins]
    simp only [List.count_nil]
    omega

/-- The worker is in the middle of something with this descriptor. -/
def Busy (w : Worker) (fd : ℤ) : Prop :=
  w.pc = .erasing fd ∨ (∃ c ∈ w.fired, c.fd = fd) ∨
    match w.pc with
    | .adding tc => tc.fd = fd
    | _ => False

instance (w : Worker) (fd : ℤ) : Decidable (Busy w fd) := by
  unfold Busy
  cases w.pc <;> infer_instance

theorem moveConnOut_eq {fd : ℤ} (hc : s.conns[fd]? = some c) :
    s.moveConnOut fd = { s.erase fd with
      registered := s.registered.erase c
      moved := s.moved ++ [c] } := by
  unfold ServerState.moveConnOut
  rw [hc]

theorem settle_moveConnOut {pc : WorkerPc} {fd : ℤ} (hpc : pc ≠ .erasing fd)
    (hc : s.conns[fd]? = some c) :
    (settle pc s).conns[fd]? = some c ∧
      settle pc (s.moveConnOut fd) = (settle pc s).moveConnOut fd := by
  cases pc with
  | erasing fd' =>
    have hne : fd' ≠ fd := fun he => hpc (he ▸ rfl)
    have hget : (s.erase fd').conns[fd]? = some c := by
      unfold ServerState.erase
      rw [Std.ExtTreeMap.getElem?_erase, if_neg fun he => hne (Std.compare_eq_iff_eq.mp he)]
      exact hc
    have hconns : (s.conns.erase fd).erase fd' = (s.conns.erase fd').erase fd := by
      ext1 x
      simp only [Std.ExtTreeMap.getElem?_erase, Std.compare_eq_iff_eq]
      by_cases hx : fd = x
      · simp [hx]
      · simp [hx]
    refine ⟨hget, ?_⟩
    unfold settle
    dsimp only
    rw [moveConnOut_eq hc, moveConnOut_eq hget]
    unfold ServerState.erase
    dsimp only
    rw [hconns]
  | top => exact ⟨hc, rfl⟩
  | adding tc => exact ⟨hc, rfl⟩
  | closing toClose toTimeout exits => exact ⟨hc, rfl⟩
  | exited => exact ⟨hc, rfl⟩

/-- A connection that the worker is not busy with is moved out. -/
theorem WorkerInv.moveConnOut (h : WorkerInv w) {fd : ℤ} (hb : ¬Busy w fd)
    (hc : w.state.conns[fd]? = some c) :
    Works [] [fd] w { w with state := w.state.moveConnOut fd } := by
  obtain ⟨he, hf, ha⟩ : w.pc ≠ .erasing fd ∧ (∀ c ∈ w.fired, c.fd ≠ fd) ∧
      ∀ tc, w.pc = .adding tc → tc.fd ≠ fd := by
    refine ⟨fun he => hb (Or.inl he), fun c hc he => hb (Or.inr (Or.inl ⟨c, hc, he⟩)),
      fun tc hpc he => hb (Or.inr (Or.inr ?_))⟩
    rw [hpc]
    exact he
  obtain ⟨hget, hset⟩ := settle_moveConnOut he hc
  have hout := moveConnOut_eq hc
  have hhas : ∀ c', c'.fd ≠ fd → (settle w.pc w.state).Has c' →
      ((settle w.pc w.state).moveConnOut fd).Has c' := by
    intro c' hne hc'
    rw [moveConnOut_eq hget]
    exact ServerState.has_erase.mpr ⟨hne, hc'⟩
  refine ⟨⟨?_, by rw [hout]; exact h.alive, fun c' hc' => ?_, h.nodup, fun tc hpc => ?_,
    fun fd' hpc => ?_⟩, fun x => ?_, fun c' hc' _ => ?_⟩
  · rw [hset]
    exact h.account.moveConnOut fd
  · rw [hset]
    exact hhas c' (hf c' hc') (h.fired c' hc')
  · dsimp only at hpc
    have htc := hhas tc (ha tc hpc)
    rw [hpc] at htc
    exact htc (h.adding tc hpc)
  · dsimp only at hpc
    have hne : fd' ≠ fd := fun he' => he (he' ▸ hpc)
    rw [hout]
    exact Std.ExtTreeMap.mem_erase.mpr
      ⟨fun hcmp => hne (Std.compare_eq_iff_eq.mp hcmp).symm, h.erasing fd' hpc⟩
  · have herase := count_fds_erase hget x
    have hfresh : fresh { w with state := w.state.moveConnOut fd } = fresh w := rfl
    have hfds : fds ((settle w.pc w.state).moveConnOut fd) =
        fds ((settle w.pc w.state).erase fd) := by
      rw [moveConnOut_eq hget]
      rfl
    rw [count_held, count_held, hfresh, hset, hfds, herase]
    simp only [List.count_nil]
    omega
  · rw [hout]
    exact ⟨hc'.id, hc'.entered, hc'.closed, hc'.handled⟩

end Worker

end Pink.Server.Workers
