import Std.Data.ExtTreeMap
import Pink.Redis.Wire

/-! # The connections of a server thread

`WorkerThread` and `HolyThread` keep their connections in a map `conns_` from descriptors, and share
what they do with it: `MoveConnOut`, `DoCronTask`, `CloseFd`, `Cleanup` and the killing of one
address. The state also records what happened to each connection: whether it was in the map, whether
it was moved out, and every call of `close` and of `FdClosedHandle` for it.

`Inv` is the account of the connections: those in the map are open, and those that left it are
moved out, closed once, or in one of the vectors `to_close` and `to_timeout`. -/

namespace Pink.Server.Conns

open Pink.Redis.Wire

/-- A connection: the object behind a `shared_ptr`, its descriptor and its address. -/
structure Conn where
  id : ℕ
  fd : ℤ
  ipPort : Bytes
  deriving DecidableEq, Repr

def kKillAllConnsTask : Bytes := bytes "kill_all_conns"

structure ServerState where
  conns : Std.ExtTreeMap ℤ Conn compare := ∅
  deletingConnIpport : Finset Bytes := ∅
  keepaliveTimeout : ℤ := 60
  /-- `is_waiting_del_`, set by `delayed_del`. -/
  waitingDel : Finset Conn := ∅
  /-- The second of `last_interaction_`, for each connection. -/
  lastInteraction : ℕ → ℤ := fun _ => 0
  /-- The connections epoll reports events of. -/
  registered : Finset Conn := ∅
  /-- An object that is gone was used. -/
  crashed : Bool := false
  nextId : ℕ := 0
  /-- The connections that have been in `conns`, and those that were moved out. -/
  entered : List Conn := []
  moved : List Conn := []
  /-- The calls of `close`, `FdClosedHandle` and `FdTimeoutHandle`. -/
  closed : List Conn := []
  handled : List Conn := []
  timedOut : List Conn := []

namespace ServerState

/-- A connection is in `conns`. -/
def Has (s : ServerState) (c : Conn) : Prop := s.conns[c.fd]? = some c

instance (s : ServerState) (c : Conn) : Decidable (s.Has c) := inferInstanceAs (Decidable (_ = _))

/-- A descriptor that is not open: every connection that had it was closed, or was moved out and may
have been closed by its new owner. -/
def Free (s : ServerState) (fd : ℤ) : Prop :=
  ∀ c ∈ s.entered, c.fd = fd → c ∈ s.closed ∨ c ∈ s.moved

instance (s : ServerState) (fd : ℤ) : Decidable (s.Free fd) :=
  inferInstanceAs (Decidable (∀ _ ∈ _, _))

/-- `CloseFd`. A closed descriptor is no longer in the epoll set. -/
def closeFd (s : ServerState) (c : Conn) : ServerState :=
  { s with
    closed := s.closed ++ [c]
    handled := s.handled ++ [c]
    registered := s.registered.erase c }

/-- `conns_.erase(fd)`. -/
def erase (s : ServerState) (fd : ℤ) : ServerState := { s with conns := s.conns.erase fd }

def moveConnOut (s : ServerState) (fd : ℤ) : ServerState :=
  match s.conns[fd]? with
  | none => s
  | some c =>
    { s.erase fd with registered := s.registered.erase c, moved := s.moved ++ [c] }

/-- A new connection is put into the map and into the epoll set. -/
def enter (s : ServerState) (c : Conn) : ServerState :=
  { s with
    conns := s.conns.insert c.fd c
    registered := insert c s.registered
    entered := s.entered ++ [c] }

/-- The constructor of the connection, at second `now`. -/
def newPinkConn (s : ServerState) (fd : ℤ) (ipPort : Bytes) (now : ℤ) : Conn × ServerState :=
  (⟨s.nextId, fd, ipPort⟩,
    { s with
      nextId := s.nextId + 1
      lastInteraction := Function.update s.lastInteraction s.nextId now })

/-- The connections marked after `conn->delayed_del()`, which only `WorkerThread` calls. -/
def delayedDel (s : ServerState) (worker : Bool) (c : Conn) : Finset Conn :=
  if worker then insert c s.waitingDel else s.waitingDel

/-- `WorkerThread::TryKillConn` and `HolyThread::KillConn`. -/
def tryKillConn (worker : Bool) (s : ServerState) (ipPort : Bytes) : ServerState × Bool :=
  if ipPort = kKillAllConnsTask then
    ({ s with deletingConnIpport := insert ipPort s.deletingConnIpport }, true)
  else
    match s.conns.toList.find? fun p => p.2.ipPort = ipPort with
    | none => (s, false)
    | some p =>
      ({ s with
        waitingDel := s.delayedDel worker p.2
        deletingConnIpport := insert ipPort s.deletingConnIpport }, true)

/-- The loop of `DoCronTask` over the map, with the vectors `to_close` and `to_timeout`. -/
def cronLoop (worker : Bool) (now : ℤ) :
    List (ℤ × Conn) → ServerState → List Conn → List Conn → ServerState × List Conn × List Conn
  | [], s, toClose, toTimeout => (s, toClose, toTimeout)
  | (fd, conn) :: rest, s, toClose, toTimeout =>
    if conn.ipPort ∈ s.deletingConnIpport then
      cronLoop worker now rest
        { s.erase fd with
          deletingConnIpport := s.deletingConnIpport.erase conn.ipPort
          waitingDel := s.delayedDel worker conn }
        (toClose ++ [conn]) toTimeout
    else if s.keepaliveTimeout > 0 ∧ now - s.lastInteraction conn.id > s.keepaliveTimeout then
      cronLoop worker now rest (s.erase fd) toClose (toTimeout ++ [conn])
    else cronLoop worker now rest s toClose toTimeout

/-- `CloseFd` and `FdTimeoutHandle`. -/
def closeTimedOut (s : ServerState) (c : Conn) : ServerState :=
  { s.closeFd c with timedOut := s.timedOut ++ [c] }

def doCronTask (worker : Bool) (s : ServerState) (now : ℤ) : ServerState :=
  if kKillAllConnsTask ∈ s.deletingConnIpport then
    -- `to_close` has got all connections, and the `return` drops it
    { s with conns := ∅, deletingConnIpport := ∅ }
  else
    let (s, toClose, toTimeout) := cronLoop worker now s.conns.toList s [] []
    toTimeout.foldl closeTimedOut (toClose.foldl closeFd s)

def cleanup (s : ServerState) : ServerState :=
  (s.conns.toList.map Prod.snd).foldl closeFd { s with conns := ∅ }

/-! ### The account -/

/-- The account of the connections, when those in `pending` have left the map and are still to be
closed. -/
structure Inv (pending : List Conn) (s : ServerState) : Prop where
  key : ∀ fd (c : Conn), s.conns[fd]? = some c → c.fd = fd
  fresh : ∀ c, c ∈ s.entered ∨ c ∈ s.closed ∨ c ∈ s.handled → c.id < s.nextId
  live : ∀ c, s.Has c → c ∈ s.entered ∧ c ∉ s.moved ∧ c ∉ s.closed ∧ c ∉ s.handled
  left : ∀ c ∈ s.entered, ¬s.Has c → c ∈ s.moved ∨ c ∈ pending ∨
    s.closed.count c = 1 ∧ s.handled.count c = 1
  moved : ∀ c ∈ s.moved, c ∈ s.entered
  waiting : ∀ c ∈ pending, c ∈ s.entered ∧ ¬s.Has c ∧ c ∉ s.moved ∧ c ∉ s.closed ∧ c ∉ s.handled
  nodup : pending.Nodup
  registered : ∀ c ∈ s.registered, s.Has c ∨ c ∈ pending

theorem has_erase {s : ServerState} {fd : ℤ} {c : Conn} :
    (s.erase fd).Has c ↔ c.fd ≠ fd ∧ s.Has c := by
  unfold Has erase
  rw [Std.ExtTreeMap.getElem?_erase]
  simp only [Std.compare_eq_iff_eq]
  by_cases h : fd = c.fd
  · simp [h]
  · simp [h, Ne.symm h]

theorem has_enter {s : ServerState} {c c' : Conn} :
    (s.enter c).Has c' ↔ if c'.fd = c.fd then c' = c else s.Has c' := by
  unfold Has enter
  rw [Std.ExtTreeMap.getElem?_insert]
  simp only [Std.compare_eq_iff_eq]
  by_cases h : c.fd = c'.fd
  · simp [h, eq_comm]
  · simp [h, Ne.symm h]

section Account
variable {s : ServerState} {pending : List Conn} {c : Conn}

theorem Inv.perm {pending' : List Conn} (h : Inv pending s) (hp : pending.Perm pending') :
    Inv pending' s where
  key := h.key
  fresh := h.fresh
  live := h.live
  left c hc hn := by rw [← hp.mem_iff]; exact h.left c hc hn
  moved := h.moved
  waiting c hc := h.waiting c (hp.mem_iff.mpr hc)
  nodup := hp.nodup_iff.mp h.nodup
  registered c hc := by rw [← hp.mem_iff]; exact h.registered c hc

/-- Changes that the account does not mention. -/
theorem Inv.congr {s' : ServerState} (h : Inv pending s) (h1 : s'.conns = s.conns)
    (h2 : s'.nextId = s.nextId) (h3 : s'.entered = s.entered) (h4 : s'.moved = s.moved)
    (h5 : s'.closed = s.closed) (h6 : s'.handled = s.handled)
    (h7 : s'.registered = s.registered) : Inv pending s' := by
  have hh : ∀ c, s'.Has c ↔ s.Has c := fun c => by unfold Has; rw [h1]
  refine ⟨h1 ▸ h.key, ?_, ?_, ?_, ?_, ?_, h.nodup, ?_⟩
  · rw [h2, h3, h5, h6]; exact h.fresh
  · simp only [hh, h3, h4, h5, h6]; exact h.live
  · simp only [hh, h3, h4, h5, h6]; exact h.left
  · rw [h3, h4]; exact h.moved
  · simp only [hh, h3, h4, h5, h6]; exact h.waiting
  · simp only [hh, h7]; exact h.registered

theorem Has.eq_of_fd {c' : Conn} (hc : s.Has c) (hc' : s.Has c') (hfd : c'.fd = c.fd) :
    c' = c := by
  unfold Has at hc hc'
  rw [hfd, hc] at hc'
  exact (Option.some.inj hc').symm

/-- A connection leaves the map for one of the vectors. -/
theorem Inv.drop (h : Inv pending s) (hc : s.Has c) : Inv (c :: pending) (s.erase c.fd) where
  key fd c' hc' := by
    unfold erase at hc'
    rw [Std.ExtTreeMap.getElem?_erase] at hc'
    split_ifs at hc'
    exact h.key fd c' hc'
  fresh := h.fresh
  live c' hc' := h.live c' (has_erase.mp hc').2
  left c' hc' hn := by
    by_cases hhas : s.Has c'
    · have : c'.fd = c.fd := by
        by_contra hne
        exact hn (has_erase.mpr ⟨hne, hhas⟩)
      exact Or.inr (Or.inl (hc.eq_of_fd hhas this ▸ List.mem_cons_self))
    · rcases h.left c' hc' hhas with h | h | h
      · exact Or.inl h
      · exact Or.inr (Or.inl (List.mem_cons_of_mem _ h))
      · exact Or.inr (Or.inr h)
  moved := h.moved
  waiting c' hc' := by
    rcases List.mem_cons.mp hc' with rfl | hc'
    · obtain ⟨h1, h2, h3, h4⟩ := h.live c' hc
      exact ⟨h1, fun hh => (has_erase.mp hh).1 rfl, h2, h3, h4⟩
    · obtain ⟨h1, h2, h3⟩ := h.waiting c' hc'
      exact ⟨h1, fun hh => h2 (has_erase.mp hh).2, h3⟩
  nodup := List.nodup_cons.mpr ⟨fun hm => (h.waiting c hm).2.1 hc, h.nodup⟩
  registered c' hc' := by
    rcases h.registered c' hc' with hh | hp
    · by_cases hfd : c'.fd = c.fd
      · exact Or.inr (hc.eq_of_fd hh hfd ▸ List.mem_cons_self)
      · exact Or.inl (has_erase.mpr ⟨hfd, hh⟩)
    · exact Or.inr (List.mem_cons_of_mem _ hp)

/-- A connection of one of the vectors is closed. -/
theorem Inv.close (h : Inv (c :: pending) s) : Inv pending (s.closeFd c) := by
  obtain ⟨hent, hnot, hnm, hnc, hnh⟩ := h.waiting c List.mem_cons_self
  obtain ⟨hcp, hnd⟩ := List.nodup_cons.mp h.nodup
  refine ⟨h.key, fun c' hc' => ?_, fun c' hc' => ?_, fun c' hc' hn => ?_, h.moved,
    fun c' hc' => ?_, hnd, fun c' hc' => ?_⟩
  · simp only [closeFd, List.mem_append, List.mem_singleton] at hc'
    rcases hc' with hc' | (hc' | rfl) | (hc' | rfl)
    · exact h.fresh c' (Or.inl hc')
    · exact h.fresh c' (Or.inr (Or.inl hc'))
    · exact h.fresh c' (Or.inl hent)
    · exact h.fresh c' (Or.inr (Or.inr hc'))
    · exact h.fresh c' (Or.inl hent)
  · obtain ⟨h1, h2, h3, h4⟩ := h.live c' hc'
    have hne : c' ≠ c := by rintro rfl; exact hnot hc'
    exact ⟨h1, h2, by simp [closeFd, h3, hne], by simp [closeFd, h4, hne]⟩
  · by_cases he : c' = c
    · subst he
      right; right
      simp only [closeFd, List.count_append, List.count_singleton_self]
      rw [List.count_eq_zero.mpr hnc, List.count_eq_zero.mpr hnh]
      exact ⟨rfl, rfl⟩
    · rcases h.left c' hc' hn with hl | hl | hl
      · exact Or.inl hl
      · exact Or.inr (Or.inl ((List.mem_cons.mp hl).resolve_left he))
      · right; right
        simpa [closeFd, List.count_append, List.count_singleton, Ne.symm he] using hl
  · obtain ⟨h1, h2, h3, h4, h5⟩ := h.waiting c' (List.mem_cons_of_mem _ hc')
    have hne : c' ≠ c := by rintro rfl; exact hcp hc'
    exact ⟨h1, h2, h3, by simp [closeFd, h4, hne], by simp [closeFd, h5, hne]⟩
  · simp only [closeFd, Finset.mem_erase] at hc'
    rcases h.registered c' hc'.2 with hh | hp
    · exact Or.inl hh
    · exact Or.inr ((List.mem_cons.mp hp).resolve_left hc'.1)

theorem Inv.closeAll : ∀ {cs : List Conn} {s : ServerState}, Inv (cs ++ pending) s →
    Inv pending (cs.foldl closeFd s) := by
  intro cs
  induction cs with
  | nil =>
    intro _ h
    exact h
  | cons c cs ih =>
    intro s h
    have hc : Inv (cs ++ pending) (s.closeFd c) := Inv.close h
    exact ih hc

theorem Inv.closeTimedOutAll : ∀ {cs : List Conn} {s : ServerState}, Inv (cs ++ pending) s →
    Inv pending (cs.foldl closeTimedOut s) := by
  intro cs
  induction cs with
  | nil =>
    intro _ h
    exact h
  | cons c cs ih =>
    intro s h
    have hc : Inv (cs ++ pending) (s.closeTimedOut c) :=
      (Inv.close h).congr rfl rfl rfl rfl rfl rfl rfl
    exact ih hc

/-! ### The operations keep the account -/

theorem Inv.has (h : Inv pending s) {fd : ℤ} (hc : s.conns[fd]? = some c) : s.Has c := by
  unfold Has; rw [h.key fd c hc]; exact hc

theorem Inv.moveConnOut (h : Inv pending s) (fd : ℤ) : Inv pending (s.moveConnOut fd) := by
  unfold ServerState.moveConnOut
  rcases hc : s.conns[fd]? with _ | c
  · exact h
  · have hhas := h.has hc
    obtain rfl := h.key fd c hc
    have hd := h.drop hhas
    obtain ⟨hent, hnot, -, hnc, hnh⟩ := hd.waiting c List.mem_cons_self
    obtain ⟨hcp, hnd⟩ := List.nodup_cons.mp hd.nodup
    refine ⟨hd.key, hd.fresh, fun c' hc' => ?_, fun c' hc' hn => ?_, fun c' hc' => ?_,
      fun c' hc' => ?_, hnd, fun c' hc' => ?_⟩
    · obtain ⟨h1, h2, h3⟩ := hd.live c' hc'
      have hne : c' ≠ c := by rintro rfl; exact hnot hc'
      refine ⟨h1, fun hm => ?_, h3⟩
      rcases List.mem_append.mp hm with hm | hm
      · exact h2 hm
      · exact hne (List.mem_singleton.mp hm)
    · rcases hd.left c' hc' hn with hl | hl | hl
      · exact Or.inl (List.mem_append_left _ hl)
      · rcases List.mem_cons.mp hl with rfl | hl
        · exact Or.inl (List.mem_append_right _ (List.mem_singleton_self _))
        · exact Or.inr (Or.inl hl)
      · exact Or.inr (Or.inr hl)
    · rcases List.mem_append.mp hc' with hm | hm
      · exact hd.moved c' hm
      · rw [List.mem_singleton.mp hm]; exact hent
    · obtain ⟨h1, h2, h3, h4⟩ := hd.waiting c' (List.mem_cons_of_mem _ hc')
      refine ⟨h1, h2, fun hm => ?_, h4⟩
      rcases List.mem_append.mp hm with hm | hm
      · exact h3 hm
      · exact hcp (List.mem_singleton.mp hm ▸ hc')
    · obtain ⟨hne, hc'⟩ := Finset.mem_erase.mp hc'
      rcases hd.registered c' hc' with hh | hp
      · exact Or.inl hh
      · exact Or.inr ((List.mem_cons.mp hp).resolve_left hne)

/-- The constructor of a connection changes nothing. -/
theorem Inv.newPinkConn (h : Inv pending s) (fd : ℤ) (ipPort : Bytes) (now : ℤ) :
    Inv pending (s.newPinkConn fd ipPort now).2 :=
  ⟨h.key, fun c hc => (h.fresh c hc).trans (Nat.lt_succ_self _), h.live, h.left, h.moved,
    h.waiting, h.nodup, h.registered⟩

/-- No connection of the map has a descriptor that is not open. -/
theorem Inv.not_has_of_free (h : Inv pending s) {fd : ℤ} (hf : s.Free fd) (hc : c.fd = fd) :
    ¬s.Has c := by
  intro hhas
  obtain ⟨h1, h2, h3, -⟩ := h.live c hhas
  exact (hf c h1 hc).elim h3 h2

/-- A connection that is new enters the map. -/
theorem Inv.enter (h : Inv [] s) (hf : s.Free c.fd) (hid : c.id < s.nextId)
    (hnew : c ∉ s.entered ∧ c ∉ s.closed ∧ c ∉ s.handled) : Inv [] (s.enter c) := by
  have hnm : c ∉ s.moved := fun hm => hnew.1 (h.moved c hm)
  have hkeep : ∀ c', s.Has c' → (s.enter c).Has c' := by
    intro c' hc'
    rw [has_enter, if_neg fun hfd => h.not_has_of_free hf hfd hc']
    exact hc'
  refine ⟨fun fd c' hc' => ?_, fun c' hc' => ?_, fun c' hc' => ?_, fun c' hc' hn => ?_,
    fun c' hc' => List.mem_append_left _ (h.moved c' hc'), by simp, List.nodup_nil,
    fun c' hc' => Or.inl ?_⟩
  · unfold ServerState.enter at hc'
    rw [Std.ExtTreeMap.getElem?_insert] at hc'
    split_ifs at hc' with he
    · rw [← Option.some.inj hc']; exact Std.compare_eq_iff_eq.mp he
    · exact h.key fd c' hc'
  · rcases hc' with hc' | hc'
    · rcases List.mem_append.mp hc' with hc' | hc'
      · exact h.fresh c' (Or.inl hc')
      · rw [List.mem_singleton.mp hc']; exact hid
    · exact h.fresh c' (Or.inr hc')
  · rw [has_enter] at hc'
    split_ifs at hc' with hfd
    · subst hc'
      exact ⟨List.mem_append_right _ (List.mem_singleton_self _), hnm, hnew.2⟩
    · obtain ⟨h1, h2⟩ := h.live c' hc'
      exact ⟨List.mem_append_left _ h1, h2⟩
  · rcases List.mem_append.mp hc' with hc' | hc'
    · exact h.left c' hc' fun hh => hn (hkeep c' hh)
    · obtain rfl := List.mem_singleton.mp hc'
      exact absurd (has_enter.mpr (by simp)) hn
  · rcases Finset.mem_insert.mp hc' with rfl | hc'
    · exact has_enter.mpr (by simp)
    · exact hkeep c' ((h.registered c' hc').resolve_right List.not_mem_nil)

theorem Inv.tryKillConn (h : Inv pending s) (worker : Bool) (ipPort : Bytes) :
    Inv pending (s.tryKillConn worker ipPort).1 := by
  unfold ServerState.tryKillConn
  split_ifs
  · exact h.congr rfl rfl rfl rfl rfl rfl rfl
  · split
    · exact h
    · exact h.congr rfl rfl rfl rfl rfl rfl rfl

theorem Inv.cronLoop (worker : Bool) (now : ℤ) :
    ∀ {rest : List (ℤ × Conn)} {s : ServerState} {toClose toTimeout : List Conn},
      Inv (toClose ++ toTimeout) s → (rest.map Prod.fst).Nodup →
      (∀ p ∈ rest, s.conns[p.1]? = some p.2) →
      Inv ((cronLoop worker now rest s toClose toTimeout).2.1 ++
          (cronLoop worker now rest s toClose toTimeout).2.2)
        (cronLoop worker now rest s toClose toTimeout).1 := by
  intro rest
  induction rest with
  | nil =>
    intro _ _ _ h _ _
    exact h
  | cons p rest ih =>
    obtain ⟨fd, conn⟩ := p
    intro s toClose toTimeout h hnd hin
    obtain ⟨hnot, hnd⟩ := List.nodup_cons.mp hnd
    have hconn : s.conns[fd]? = some conn := hin (fd, conn) List.mem_cons_self
    have hrest : ∀ p ∈ rest, (s.erase fd).conns[p.1]? = some p.2 := by
      intro p hp
      have hne : fd ≠ p.1 := fun he => hnot (List.mem_map.mpr ⟨p, hp, he.symm⟩)
      unfold erase
      rw [Std.ExtTreeMap.getElem?_erase, if_neg (fun he => hne (Std.compare_eq_iff_eq.mp he))]
      exact hin p (List.mem_cons_of_mem _ hp)
    have hdrop : Inv (conn :: (toClose ++ toTimeout)) (s.erase fd) := by
      have := h.drop (h.has hconn)
      rwa [h.key fd conn hconn] at this
    unfold ServerState.cronLoop
    split_ifs
    · refine ih ?_ hnd hrest
      refine Inv.congr (hdrop.perm ?_) rfl rfl rfl rfl rfl rfl rfl
      rw [List.append_assoc, List.singleton_append]
      exact List.perm_middle.symm
    · refine ih (hdrop.perm ?_) hnd hrest
      rw [← List.append_assoc]
      exact (List.perm_append_singleton _ _).symm
    · exact ih h hnd fun p hp => hin p (List.mem_cons_of_mem _ hp)

theorem nodup_keys_conns (s : ServerState) : (s.conns.toList.map Prod.fst).Nodup := by
  rw [Std.ExtTreeMap.map_fst_toList_eq_keys]
  exact Std.ExtTreeMap.nodup_keys

/-- The cron task keeps the account unless it drops connections. -/
theorem Inv.doCronTask (h : Inv [] s) (worker : Bool) (now : ℤ)
    (hk : kKillAllConnsTask ∈ s.deletingConnIpport → s.conns = ∅) :
    Inv [] (s.doCronTask worker now) := by
  unfold ServerState.doCronTask
  split_ifs with hkill
  · exact h.congr (hk hkill).symm rfl rfl rfl rfl rfl rfl
  · have h0 : Inv ([] ++ []) s := h
    have hloop := Inv.cronLoop worker now h0 s.nodup_keys_conns fun p hp =>
      Std.ExtTreeMap.mem_toList_iff_getElem?_eq_some.mp hp
    refine Inv.closeTimedOutAll (Inv.closeAll (hloop.perm ?_))
    rw [List.append_nil]

/-- All connections of the map wait to be closed. -/
theorem Inv.clear (h : Inv [] s) : Inv (s.conns.toList.map Prod.snd) { s with conns := ∅ } := by
  have hmem : ∀ c, c ∈ s.conns.toList.map Prod.snd ↔ s.Has c := by
    intro c
    constructor
    · intro hc
      obtain ⟨p, hp, rfl⟩ := List.mem_map.mp hc
      exact h.has (Std.ExtTreeMap.mem_toList_iff_getElem?_eq_some.mp hp)
    · intro hc
      exact List.mem_map.mpr ⟨(c.fd, c), Std.ExtTreeMap.mem_toList_iff_getElem?_eq_some.mpr hc, rfl⟩
  have hnone : ∀ c, ¬({ s with conns := ∅ } : ServerState).Has c := by simp [Has]
  have hnd : (s.conns.toList.map Prod.snd).Nodup := by
    refine (List.nodup_map_iff_inj_on (List.Nodup.of_map _ s.nodup_keys_conns)).mpr ?_
    intro p hp q hq he
    have hp' := Std.ExtTreeMap.mem_toList_iff_getElem?_eq_some.mp hp
    have hq' := Std.ExtTreeMap.mem_toList_iff_getElem?_eq_some.mp hq
    exact Prod.ext ((h.key _ _ hp').symm.trans (he ▸ h.key _ _ hq')) he
  refine ⟨by simp, h.fresh, fun c hc => absurd hc (hnone c), fun c hc _ => ?_, h.moved,
    fun c hc => ?_, hnd, fun c hc => Or.inr ?_⟩
  · rw [hmem]
    by_cases hhas : s.Has c
    · exact Or.inr (Or.inl hhas)
    · exact (h.left c hc hhas).imp_right fun hl => Or.inr (hl.resolve_left List.not_mem_nil)
  · rw [hmem] at hc
    obtain ⟨h1, h2, h3⟩ := h.live c hc
    exact ⟨h1, hnone c, h2, h3⟩
  · rw [hmem]
    exact (h.registered c hc).resolve_right List.not_mem_nil

theorem Inv.cleanup (h : Inv [] s) : Inv [] s.cleanup := by
  refine Inv.closeAll ?_
  rw [List.append_nil]
  exact h.clear

end Account

end ServerState

end Pink.Server.Conns
