import Pink.Lib.Runs
import Pink.Client.Thread

/-! # The two indexes of the client thread

`ipport_conns_` and `fd_conns_` hold the same connections, the descriptors in `fd_conns_` are open,
and `connecting_fds_` is a part of them (`Agree`). Every step keeps this but one: a notification to
close erases the entry of its descriptor from one map and the entry of its address from the other,
and when it is read these may be entries of two different connections, or only one of them may be
there. In a run in which they are the same or both missing the indexes agree in every state
(`run_agree`). -/

namespace Pink.Client.Indexes

open Pink.Redis.Wire Pink.Lib.Runs Pink.Server.Conns Pink.Client.Thread
open ClientThread

/-- The two indexes describe the same set of open connections. -/
structure Agree (s : ClientThread) : Prop where
  same : ∀ (ipPort : Bytes) (c : Conn), s.ipportConns[ipPort]? = some c ↔
    s.fdConns[c.fd]? = some c ∧ c.ipPort = ipPort
  key : ∀ (fd : ℤ) (c : Conn), s.fdConns[fd]? = some c → c.fd = fd
  openFd : ∀ (fd : ℤ) (c : Conn), s.fdConns[fd]? = some c → fd ∈ s.openFds
  connecting : ∀ fd ∈ s.connectingFds, ∃ c : Conn, s.fdConns[fd]? = some c

/-- A notification to close is for one connection, or for none. -/
def MatchingItem (s : ClientThread) : Option Item → Prop
  | some (.close fd ipPort) => s.fdConns[fd]? = s.ipportConns[ipPort]?
  | _ => True

/-- The step is not the reading of a notification to close whose descriptor and address do not
match. -/
def Matching (s : ClientThread) : Op → Prop
  | .processNotify _ _ _ => MatchingItem s s.pipe.head?
  | _ => True

instance (s : ClientThread) : ∀ item, Decidable (MatchingItem s item)
  | none | some (.write _) => .isTrue trivial
  | some (.close _ _) => inferInstanceAs (Decidable (_ = _))

instance (s : ClientThread) (op : Op) : Decidable (Matching s op) := by
  cases op <;> unfold Matching <;> infer_instance

/-- The notifications to write carry addresses that `Write` has made. -/
def Addressed (items : List Item) : Prop :=
  ∀ ipPort, .write ipPort ∈ items → ∃ ip port, ipPort = join ip port

/-- What holds in every state. -/
structure Inv (s : ClientThread) : Prop where
  agree : Agree s
  notifies : Addressed s.notifies
  pipe : Addressed s.pipe

section Agreement
variable {s : ClientThread}

/-- Changes that the agreement does not mention. -/
theorem Agree.congr {s' : ClientThread} (h : Agree s) (h1 : s'.fdConns = s.fdConns)
    (h2 : s'.ipportConns = s.ipportConns) (h3 : s'.connectingFds ⊆ s.connectingFds)
    (h4 : ∀ fd ∈ s.openFds, fd ∈ s'.openFds ∨ ∀ c : Conn, s.fdConns[fd]? ≠ some c) :
    Agree s' := by
  refine ⟨?_, ?_, fun fd c hc => ?_, fun fd hfd => ?_⟩
  · rw [h1, h2]; exact h.same
  · rw [h1]; exact h.key
  · rw [h1] at hc
    exact (h4 fd (h.openFd fd c hc)).resolve_right fun hn => hn c hc
  · rw [h1]; exact h.connecting fd (h3 hfd)

theorem Agree.frame {s' : ClientThread} (h : Agree s) (h1 : s'.fdConns = s.fdConns)
    (h2 : s'.ipportConns = s.ipportConns) (h3 : s'.connectingFds = s.connectingFds)
    (h4 : s'.openFds = s.openFds) : Agree s' := by
  refine h.congr h1 h2 (h3 ▸ Finset.Subset.refl _) ?_
  intro fd hfd
  left
  rw [h4]
  exact hfd

theorem getElem?_erase_fd (s : ClientThread) (fd fd' : ℤ) :
    (s.fdConns.erase fd)[fd']? = if fd' = fd then none else s.fdConns[fd']? := by
  rw [Std.ExtTreeMap.getElem?_erase]
  simp only [Std.compare_eq_iff_eq, @eq_comm _ fd fd']

theorem getElem?_erase_ipport (s : ClientThread) (a a' : Bytes) :
    (s.ipportConns.erase a)[a']? = if a' = a then none else s.ipportConns[a']? := by
  rw [Std.ExtTreeMap.getElem?_erase]
  simp only [Std.compare_eq_iff_eq, @eq_comm _ a a']

/-- A connection is closed and forgotten. -/
theorem Agree.forget {s' : ClientThread} (h : Agree s) {c : Conn} (hc : s.fdConns[c.fd]? = some c)
    (h1 : s'.fdConns = s.fdConns) (h2 : s'.ipportConns = s.ipportConns)
    (h3 : s'.connectingFds ⊆ s.connectingFds) (h4 : s'.openFds = s.openFds.erase c.fd) :
    Agree (s'.forget c.fd c.ipPort) := by
  have hip : s.ipportConns[c.ipPort]? = some c := (h.same _ _).mpr ⟨hc, rfl⟩
  have hfd : ∀ fd, (s'.forget c.fd c.ipPort).fdConns[fd]? =
      if fd = c.fd then none else s.fdConns[fd]? := fun fd => by
    rw [← getElem?_erase_fd, ← h1]; rfl
  have hadr : ∀ a, (s'.forget c.fd c.ipPort).ipportConns[a]? =
      if a = c.ipPort then none else s.ipportConns[a]? := fun a => by
    rw [← getElem?_erase_ipport, ← h2]; rfl
  refine ⟨fun a c' => ?_, fun fd c' hc' => ?_, fun fd c' hc' => ?_, fun fd hfd' => ?_⟩
  · rw [hfd, hadr]
    by_cases hcc : c' = c
    · subst hcc
      rw [if_pos rfl]
      constructor
      · intro ha
        split_ifs at ha with hne
        exact absurd ((h.same a c').mp ha).2.symm hne
      · rintro ⟨hn, -⟩
        exact absurd hn (by simp)
    · have h1' : s.fdConns[c'.fd]? = some c' → c'.fd ≠ c.fd := fun hc' he => by
        rw [he, hc] at hc'; exact hcc (Option.some.inj hc').symm
      have h2' : s.ipportConns[a]? = some c' → a ≠ c.ipPort := fun ha he => by
        rw [he, hip] at ha; exact hcc (Option.some.inj ha).symm
      constructor
      · intro ha
        split_ifs at ha
        obtain ⟨h3', h4'⟩ := (h.same a c').mp ha
        rw [if_neg (h1' h3')]
        exact ⟨h3', h4'⟩
      · rintro ⟨hf, ha⟩
        split_ifs at hf
        have := (h.same a c').mpr ⟨hf, ha⟩
        rw [if_neg (h2' this)]
        exact this
  · rw [hfd] at hc'
    split_ifs at hc'
    exact h.key fd c' hc'
  · rw [hfd] at hc'
    split_ifs at hc' with hne
    show fd ∈ s'.openFds
    rw [h4]
    exact Finset.mem_erase.mpr ⟨hne, h.openFd fd c' hc'⟩
  · obtain ⟨hne, hmem⟩ := Finset.mem_erase.mp hfd'
    obtain ⟨c', hc'⟩ := h.connecting fd (h3 hmem)
    exact ⟨c', by rw [hfd, if_neg hne]; exact hc'⟩

/-- A connection with a new descriptor and a new address enters both maps. -/
theorem Agree.newConnection (h : Agree s) {fd : ℤ} {ipPort : Bytes} (hfd : fd ∉ s.openFds)
    (hip : s.ipportConns[ipPort]? = none) (now : ℤ) :
    Agree (s.newConnection ipPort fd now) ∧
      (s.newConnection ipPort fd now).fdConns[fd]? = some ⟨s.nextId, fd, ipPort⟩ := by
  have hnone : s.fdConns[fd]? = none := by
    rcases hc : s.fdConns[fd]? with _ | c
    · rfl
    · exact absurd (h.openFd fd c hc) hfd
  have hf : ∀ fd', (s.newConnection ipPort fd now).fdConns[fd']? =
      if fd' = fd then some ⟨s.nextId, fd, ipPort⟩ else s.fdConns[fd']? := by
    intro fd'
    unfold ClientThread.newConnection
    rw [Std.ExtTreeMap.getElem?_insertIfNew]
    have : fd ∉ s.fdConns := by
      rw [Std.ExtTreeMap.mem_iff_isSome_getElem?, hnone]; simp
    simp only [Std.compare_eq_iff_eq, this, not_false_eq_true, and_true, @eq_comm _ fd fd']
  have ha : ∀ a, (s.newConnection ipPort fd now).ipportConns[a]? =
      if a = ipPort then some ⟨s.nextId, fd, ipPort⟩ else s.ipportConns[a]? := by
    intro a
    unfold ClientThread.newConnection
    rw [Std.ExtTreeMap.getElem?_insertIfNew]
    have : ipPort ∉ s.ipportConns := by
      rw [Std.ExtTreeMap.mem_iff_isSome_getElem?, hip]; simp
    simp only [Std.compare_eq_iff_eq, this, not_false_eq_true, and_true, @eq_comm _ ipPort a]
  refine ⟨⟨fun a c => ?_, fun fd' c hc => ?_, fun fd' c hc => ?_, fun fd' hm => ?_⟩, by simp [hf]⟩
  · rw [hf, ha]
    by_cases hcf : c.fd = fd
    · rw [if_pos hcf]
      constructor
      · intro hc
        split_ifs at hc with he
        · exact ⟨hc, by rw [← Option.some.inj hc, he]⟩
        · exact absurd ((h.same a c).mp hc).1 (by rw [hcf, hnone]; simp)
      · rintro ⟨hc, rfl⟩
        rw [if_pos (by rw [← Option.some.inj hc])]
        exact hc
    · rw [if_neg hcf]
      constructor
      · intro hc
        split_ifs at hc
        · exact absurd (by rw [← Option.some.inj hc]) hcf
        · exact (h.same a c).mp hc
      · intro hc
        have := (h.same a c).mpr hc
        rw [if_neg (by rintro rfl; rw [hip] at this; simp at this)]
        exact this
  · rw [hf] at hc
    split_ifs at hc with he
    · rw [← Option.some.inj hc, he]
    · exact h.key fd' c hc
  · rw [hf] at hc
    split_ifs at hc with he
    · exact he ▸ Finset.mem_insert_self _ _
    · exact Finset.mem_insert_of_mem (h.openFd fd' c hc)
  · obtain ⟨c, hc⟩ := h.connecting fd' hm
    have hne : fd' ≠ fd := by rintro rfl; rw [hnone] at hc; simp at hc
    exact ⟨c, by rw [hf, if_neg hne]; exact hc⟩

/-! ### The event loop -/

theorem agree_closeFd_new (h : Agree s) {fd : ℤ} (hfd : fd ∉ s.openFds) (ipPort : Bytes) :
    Agree (s.closeFd fd ipPort) :=
  h.congr rfl rfl (Finset.Subset.refl _) fun _ hm =>
    Or.inl (Finset.mem_erase.mpr ⟨fun he => hfd (he ▸ hm), hm⟩)

theorem agree_connectLoop {ipPort : Bytes} (error : Bytes) (now : ℤ) :
    ∀ {attempts : List Attempt} {s : ClientThread}, Agree s → s.ipportConns[ipPort]? = none →
      Agree (connectLoop ipPort error now attempts s).1
  | [], _, h, _ => h
  | .noSocket :: rest, s, h, hip => by
    unfold connectLoop
    exact agree_connectLoop error now h hip
  | .unreachable fd :: rest, s, h, hip => by
    unfold connectLoop
    split_ifs with hfd
    · exact agree_connectLoop error now h hip
    · exact agree_connectLoop error now (agree_closeFd_new h hfd ipPort) hip
  | .inProgress fd :: rest, s, h, hip => by
    unfold connectLoop
    split_ifs with hfd
    · exact agree_connectLoop error now h hip
    · obtain ⟨hn, hc⟩ := h.newConnection hfd hip now
      refine ⟨hn.same, hn.key, hn.openFd, fun fd' hm => ?_⟩
      rcases Finset.mem_insert.mp hm with rfl | hm
      · exact ⟨_, hc⟩
      · exact hn.connecting fd' hm
  | .failed fd :: rest, s, h, hip => by
    unfold connectLoop
    split_ifs with hfd
    · exact agree_connectLoop error now h hip
    · exact agree_closeFd_new h hfd ipPort
  | .connected fd same :: rest, s, h, hip => by
    unfold connectLoop
    split_ifs with hfd
    · exact agree_connectLoop error now h hip
    all_goals exact (h.newConnection hfd hip now).1

theorem agree_scheduleConnect (h : Agree s) {ip : Bytes} {port : Int32}
    (hip : s.ipportConns[join ip port]? = none) (res : Resolved) (now : ℤ) :
    Agree (s.scheduleConnect ip port res now).1 := by
  unfold scheduleConnect
  split
  · exact h
  · exact agree_connectLoop _ now h hip

theorem agree_handOver (ipPort : Bytes) (conn : Conn) : ∀ {msgs : List Bytes} {results : List Bool}
    {s : ClientThread}, Agree s → Agree (s.handOver ipPort conn msgs results) := by
  intro msgs
  induction msgs with
  | nil =>
    intro _ _ h
    exact h.frame rfl rfl rfl rfl
  | cons msg msgs ih =>
    intro results s h
    unfold handOver
    split_ifs
    · exact h.frame rfl rfl rfl rfl
    · exact ih (h.frame rfl rfl rfl rfl)

theorem agree_sendPending (h : Agree s) (ipPort : Bytes) (results : List Bool) :
    Agree (s.sendPending ipPort results) := by
  unfold sendPending
  split
  · exact h
  · exact h.frame rfl rfl rfl rfl
  · exact h.frame rfl rfl rfl rfl
  · exact agree_handOver ipPort _ h

theorem agree_processClose (h : Agree s) {fd : ℤ} {ipPort : Bytes}
    (hm : s.fdConns[fd]? = s.ipportConns[ipPort]?) :
    Agree ((s.closeFd fd ipPort).forget fd ipPort) := by
  rcases hc : s.fdConns[fd]? with _ | c
  · have hip := hm.symm.trans hc
    refine Agree.congr h ?_ ?_ (Finset.erase_subset _ _) fun fd' hfd' => ?_
    · refine Std.ExtTreeMap.ext_getElem? fun fd' => ?_
      refine (getElem?_erase_fd s fd fd').trans ?_
      split_ifs with he
      · rw [he, hc]
      · rfl
    · refine Std.ExtTreeMap.ext_getElem? fun a => ?_
      refine (getElem?_erase_ipport s ipPort a).trans ?_
      split_ifs with he
      · rw [he, hip]
      · rfl
    · by_cases he : fd' = fd
      · subst he
        exact Or.inr fun c => by rw [hc]; simp
      · exact Or.inl (Finset.mem_erase.mpr ⟨he, hfd'⟩)
  · obtain rfl := h.key fd c hc
    obtain ⟨-, rfl⟩ := (h.same ipPort c).mp (hm.symm.trans hc)
    exact h.forget hc rfl rfl (Finset.Subset.refl _) rfl

theorem agree_processNotify {parse : Bytes → Option (Bytes × Int32)} (hp : ParseSpec parse)
    (h : Agree s) (res : Resolved) (results : List Bool) (now : ℤ) {item : Item}
    (hitem : Addressed [item]) (hm : MatchingItem s (some item)) :
    Agree (s.processNotify parse res results now item) := by
  cases item with
  | close fd ipPort => exact agree_processClose h hm
  | write ipPort =>
    obtain ⟨ip, port, rfl⟩ := hitem ipPort List.mem_cons_self
    unfold processNotify
    dsimp only
    rcases hip : s.ipportConns[join ip port]? with _ | c
    · dsimp only
      rcases hparse : parse (join ip port) with _ | ⟨ip', port'⟩
      · exact h
      · have hip' : s.ipportConns[join ip' port']? = none := by
          rw [hp.joins ip port ip' port' hparse]; exact hip
        dsimp only
        split_ifs
        · exact agree_sendPending (agree_scheduleConnect h hip' res now) _ results
        · exact agree_scheduleConnect h hip' res now
    · exact agree_sendPending h _ results

theorem agree_connEvent (h : Agree s) (fd : ℤ) (mask : Server.Threads.Mask)
    (o : Server.Threads.Outcome) (connectError : Bool) (now : ℤ) :
    Agree (s.connEvent fd mask o connectError now) := by
  unfold connEvent
  rcases hc : s.fdConns[fd]? with _ | c
  · exact h
  · obtain rfl := h.key fd c hc
    dsimp only
    generalize Backend.Thread.BackendThread.closes _ connectError mask o = b
    cases b with
    | false => exact h.congr rfl rfl (Finset.erase_subset _ _) fun _ => Or.inl
    | true => exact h.forget hc rfl rfl (Finset.erase_subset _ _) rfl

theorem agree_timeoutLoop (now : ℤ) : ∀ {rest : List (ℤ × Conn)} {s : ClientThread}, Agree s →
    (rest.map Prod.fst).Nodup → (∀ p ∈ rest, s.fdConns[p.1]? = some p.2) →
    Agree (timeoutLoop now rest s) := by
  intro rest
  induction rest with
  | nil =>
    intro _ h _ _
    exact h
  | cons p rest ih =>
    obtain ⟨fd, conn⟩ := p
    intro s h hnd hin
    have hc : s.fdConns[fd]? = some conn := hin (fd, conn) List.mem_cons_self
    obtain rfl := h.key fd conn hc
    obtain ⟨hnot, hnd⟩ := List.nodup_cons.mp hnd
    unfold timeoutLoop
    split_ifs
    · have hf : Agree ({ s with openFds := s.openFds.erase conn.fd }.forget conn.fd conn.ipPort) :=
        h.forget hc rfl rfl (Finset.Subset.refl _) rfl
      refine ih hf hnd fun p hp => ?_
      refine (getElem?_erase_fd s conn.fd p.1).trans ?_
      rw [if_neg fun he => hnot (List.mem_map.mpr ⟨p, hp, he⟩)]
      exact hin p (List.mem_cons_of_mem _ hp)
    · exact ih h hnd fun p hp => hin p (List.mem_cons_of_mem _ hp)

theorem agree_deleteLoop : ∀ {rest : List Bytes} {s : ClientThread}, Agree s →
    Agree (deleteLoop rest s) := by
  intro rest
  induction rest with
  | nil =>
    intro _ h
    exact h
  | cons name rest ih =>
    intro s h
    unfold deleteLoop
    rcases hc : s.ipportConns[name]? with _ | c
    · exact ih h
    · obtain ⟨hfd, rfl⟩ := (h.same name c).mp hc
      exact ih (h.forget hfd rfl rfl (Finset.Subset.refl _) rfl)

theorem agree_doCronTask (h : Agree s) (now : ℤ) : Agree (s.doCronTask now) := by
  have hnd : (s.fdConns.toList.map Prod.fst).Nodup := by
    rw [Std.ExtTreeMap.map_fst_toList_eq_keys]
    exact Std.ExtTreeMap.nodup_keys
  have := agree_timeoutLoop now h hnd fun p hp =>
    Std.ExtTreeMap.mem_toList_iff_getElem?_eq_some.mp hp
  exact agree_deleteLoop (this.frame rfl rfl rfl rfl)

/-! ### The items of the pipe -/

theorem addressed_append {items : List Item} (h : Addressed items) {item : Item}
    (hitem : Addressed [item]) : Addressed (items ++ [item]) := by
  intro ipPort hm
  rcases List.mem_append.mp hm with hm | hm
  · exact h ipPort hm
  · exact hitem ipPort hm

theorem addressed_sublist {items items' : List Item} (h : Addressed items)
    (hs : items' ⊆ items) : Addressed items' := fun ipPort hm => h ipPort (hs hm)

theorem items_connectLoop {ipPort error : Bytes} {now : ℤ} :
    ∀ {attempts : List Attempt} {s : ClientThread},
      (connectLoop ipPort error now attempts s).1.notifies = s.notifies ∧
        (connectLoop ipPort error now attempts s).1.pipe = s.pipe
  | [], _ => ⟨rfl, rfl⟩
  | .noSocket :: rest, s => by
    unfold connectLoop
    exact items_connectLoop
  | .unreachable fd :: rest, s => by
    unfold connectLoop
    split_ifs
    · exact items_connectLoop
    · exact items_connectLoop (s := s.closeFd fd ipPort)
  | .inProgress fd :: rest, s => by
    unfold connectLoop
    split_ifs
    · exact items_connectLoop
    · exact ⟨rfl, rfl⟩
  | .failed fd :: rest, s => by
    unfold connectLoop
    split_ifs
    · exact items_connectLoop
    · exact ⟨rfl, rfl⟩
  | .connected fd same :: rest, s => by
    unfold connectLoop
    split_ifs
    · exact items_connectLoop
    all_goals exact ⟨rfl, rfl⟩

theorem items_scheduleConnect {ip : Bytes} {port : Int32} {res : Resolved} {now : ℤ} :
    (s.scheduleConnect ip port res now).1.notifies = s.notifies ∧
      (s.scheduleConnect ip port res now).1.pipe = s.pipe := by
  unfold scheduleConnect
  split
  · exact ⟨rfl, rfl⟩
  · exact items_connectLoop

theorem items_handOver {ipPort : Bytes} {conn : Conn} : ∀ {msgs : List Bytes}
    {results : List Bool} {s : ClientThread},
    (s.handOver ipPort conn msgs results).notifies = s.notifies ∧
      (s.handOver ipPort conn msgs results).pipe = s.pipe := by
  intro msgs
  induction msgs with
  | nil =>
    intro _ _
    exact ⟨rfl, rfl⟩
  | cons msg msgs ih =>
    intro results s
    unfold handOver
    split_ifs
    · exact ⟨rfl, rfl⟩
    · exact ih (s := { s with delivered := _ })

theorem items_sendPending {ipPort : Bytes} {results : List Bool} :
    (s.sendPending ipPort results).notifies = s.notifies ∧
      (s.sendPending ipPort results).pipe = s.pipe := by
  unfold sendPending
  split
  · exact ⟨rfl, rfl⟩
  · exact ⟨rfl, rfl⟩
  · exact ⟨rfl, rfl⟩
  · exact items_handOver

theorem items_processNotify {parse : Bytes → Option (Bytes × Int32)} {res : Resolved}
    {results : List Bool} {now : ℤ} {item : Item} :
    (s.processNotify parse res results now item).notifies = s.notifies ∧
      (s.processNotify parse res results now item).pipe = s.pipe := by
  cases item with
  | close fd ipPort => exact ⟨rfl, rfl⟩
  | write ipPort =>
    unfold processNotify
    dsimp only
    split
    · exact items_sendPending
    · split
      · exact ⟨rfl, rfl⟩
      · split_ifs
        · exact ⟨items_sendPending.1.trans items_scheduleConnect.1,
            items_sendPending.2.trans items_scheduleConnect.2⟩
        · exact items_scheduleConnect

theorem items_connEvent (fd : ℤ) (mask : Server.Threads.Mask) (o : Server.Threads.Outcome)
    (connectError : Bool) (now : ℤ) :
    (s.connEvent fd mask o connectError now).notifies = s.notifies ∧
      (s.connEvent fd mask o connectError now).pipe = s.pipe := by
  unfold connEvent
  split
  · exact ⟨rfl, rfl⟩
  · dsimp only
    split_ifs <;> exact ⟨rfl, rfl⟩

theorem items_timeoutLoop (now : ℤ) : ∀ {rest : List (ℤ × Conn)} {s : ClientThread},
    (timeoutLoop now rest s).notifies = s.notifies ∧ (timeoutLoop now rest s).pipe = s.pipe := by
  intro rest
  induction rest with
  | nil =>
    intro _
    exact ⟨rfl, rfl⟩
  | cons p rest ih =>
    obtain ⟨fd, conn⟩ := p
    intro s
    unfold timeoutLoop
    split_ifs
    · exact ih
        (s := { s with openFds := s.openFds.erase conn.fd }.forget fd conn.ipPort)
    · exact ih

theorem items_deleteLoop : ∀ {rest : List Bytes} {s : ClientThread},
    (deleteLoop rest s).notifies = s.notifies ∧ (deleteLoop rest s).pipe = s.pipe := by
  intro rest
  induction rest with
  | nil =>
    intro _
    exact ⟨rfl, rfl⟩
  | cons name rest ih =>
    intro s
    unfold deleteLoop
    split
    · exact ih
    · exact ih (s := (s.closeFd _ _).forget _ name)

/-! ### Every step -/

theorem Inv.of_items {s' : ClientThread} (h : Inv s) (ha : Agree s')
    (hi : s'.notifies = s.notifies ∧ s'.pipe = s.pipe) : Inv s' :=
  ⟨ha, hi.1 ▸ h.notifies, hi.2 ▸ h.pipe⟩

theorem inv_write (h : Inv s) (ip : Bytes) (port : Int32) (msg : Bytes)
    (access : Bool) : Inv (s.write ip port msg access).1 := by
  have ha : ∀ toSend notifies, Agree { s with toSend := toSend, notifies := notifies } :=
    fun _ _ => h.agree.frame rfl rfl rfl rfl
  have hnew : Addressed [.write (join ip port)] := by
    intro ipPort hm
    obtain ⟨rfl⟩ := List.mem_singleton.mp hm
    exact ⟨ip, port, rfl⟩
  unfold write
  dsimp only
  split_ifs
  · exact ⟨ha _ _, h.notifies, h.pipe⟩
  · exact ⟨ha _ _, addressed_append h.notifies hnew, h.pipe⟩
  · exact h

theorem inv_doCronTask (h : Inv s) (now : ℤ) : Inv (s.doCronTask now) :=
  h.of_items (agree_doCronTask h.agree now)
    ⟨items_deleteLoop.1.trans (items_timeoutLoop now).1,
      items_deleteLoop.2.trans (items_timeoutLoop now).2⟩

/-- **Every step but the reading of a notification to close that does not match keeps the
agreement.** -/
theorem inv_step {parse : Bytes → Option (Bytes × Int32)} (hp : ParseSpec parse) (h : Inv s)
    (op : Op) (hop : Matching s op) : Inv (step parse s op) := by
  unfold step
  split_ifs
  · exact h
  cases op with
  | write ip port msg access => exact inv_write h ip port msg access
  | close ip port =>
    exact ⟨h.agree.frame rfl rfl rfl rfl, h.notifies, h.pipe⟩
  | notifyWrite item =>
    dsimp only
    split_ifs with hm
    · have hitem : Addressed [item] :=
        addressed_sublist h.notifies (List.cons_subset.mpr ⟨hm, List.nil_subset _⟩)
      exact ⟨h.agree.frame rfl rfl rfl rfl,
        addressed_sublist h.notifies List.erase_subset, addressed_append h.pipe hitem⟩
    · exact h
  | notifyClose fd ipPort =>
    have hitem : Addressed [.close fd ipPort] := fun _ hm => by simp at hm
    exact ⟨h.agree.frame rfl rfl rfl rfl, h.notifies,
      addressed_append h.pipe hitem⟩
  | processNotify res results now =>
    dsimp only
    split
    · exact h
    case _ item items hpipe =>
      have hall := hpipe ▸ h.pipe
      have hm : MatchingItem s (some item) := by
        have : MatchingItem s s.pipe.head? := hop
        rwa [hpipe] at this
      have ha : Agree { s with pipe := items } :=
        h.agree.frame rfl rfl rfl rfl
      have hitem : Addressed [item] :=
        addressed_sublist hall (List.cons_subset.mpr ⟨List.mem_cons_self, List.nil_subset _⟩)
      have hrest : Inv { s with pipe := items } :=
        ⟨ha, h.notifies, addressed_sublist hall (List.subset_cons_self _ _)⟩
      refine hrest.of_items ?_ items_processNotify
      exact agree_processNotify hp ha res results now hitem (by cases item <;> exact hm)
  | connEvent fd mask o connectError now =>
    exact h.of_items (agree_connEvent h.agree fd mask o connectError now)
      (items_connEvent fd mask o connectError now)
  | cron now => exact inv_doCronTask h now

theorem inv_start (timeout : ℤ) : Inv { keepaliveTimeout := timeout } :=
  ⟨⟨by simp, by simp, by simp, by simp⟩, by simp [Addressed], by simp [Addressed]⟩

end Agreement

/-- **In every run in which the notifications to close match, the two indexes agree.** -/
theorem run_agree {parse : Bytes → Option (Bytes × Int32)} (hp : ParseSpec parse) (timeout : ℤ)
    {ops : List Op}
    (h : Guarded (step parse) Matching { keepaliveTimeout := timeout } ops) :
    Agree (run (step parse) { keepaliveTimeout := timeout } ops) :=
  (run_inv Inv (fun _ op hs hop => inv_step hp hs op hop) (inv_start timeout) h).agree

/-- A function that behaves as `slash::ParseIpPortString` is assumed to. -/
def parseIpPortString (ipPort : Bytes) : Option (Bytes × Int32) :=
  match ipPort.dropWhile (· ≠ ch ':') with
  | [] => none
  | _ :: port =>
    (string2l port port.length).map fun v => (ipPort.takeWhile (· ≠ ch ':'), Int32.ofInt v)

theorem colon_not_mem_decimal (v : ℤ) : ch ':' ∉ decimal v := by
  have hnat : ch ':' ∉ decimalNat v.natAbs := by
    intro hm
    obtain ⟨d, hd, he⟩ := mem_decimalNat hm
    interval_cases d <;> exact absurd he (by decide)
  unfold decimal
  split_ifs
  · rintro (_ | ⟨_, hm⟩)
    exact hnat hm
  · exact hnat

theorem parseIpPortString_spec : ParseSpec parseIpPortString where
  joins ip port ip' port' h := by
    have hj : ∀ ip (port : Int32), join ip port = ip ++ ch ':' :: decimal port.toInt := by
      intro ip port
      rw [join, List.append_assoc]; rfl
    unfold parseIpPortString at h
    rcases hd : (join ip port).dropWhile (· ≠ ch ':') with _ | ⟨b, rest⟩ <;> rw [hd] at h
    · simp at h
    obtain ⟨v, hv, he⟩ := Option.map_eq_some_iff.mp h
    obtain ⟨rfl, rfl⟩ := Prod.mk.inj he
    have hrest : rest = decimal v := by
      have := ((string2l_spec.accepts rest rest.length v).mp hv).2.1
      rwa [List.take_length] at this
    -- the address is cut at its first colon, which is its last one: `rest` has none
    have hcut : (join ip port).takeWhile (· ≠ ch ':') ++ b :: decimal v =
        ip ++ ch ':' :: decimal port.toInt := by
      rw [← hj, ← hrest, ← hd, List.takeWhile_append_dropWhile]
    have hfirst : ch ':' ∉ (join ip port).takeWhile (· ≠ ch ':') := fun hm => by
      simpa using List.all_eq_true.mp List.all_takeWhile _ hm
    obtain ⟨h1, -, h3⟩ :=
      (List.append_cons_inj_of_notMem hfirst (colon_not_mem_decimal v)).mp hcut
    have hport : v = port.toInt := by
      rw [← longValue_decimal v, h3, longValue_decimal]
    rw [h1, hport, Int32.ofInt_toInt]

/-- Two addresses, a connection that asks to be closed, one that is closed by a `Close`, and one
that is timed out. -/
theorem run_agree_closes : Agree (run (step parseIpPortString) { keepaliveTimeout := 60 }
    [.write (bytes "a") 1 (bytes "x") true, .notifyWrite (.write (bytes "a:1")),
      .processNotify ⟨some [.unreachable 5, .inProgress 5], []⟩ [] 0, .notifyClose 5 (bytes "a:1"),
      .processNotify {} [] 1, .write (bytes "b") 2 (bytes "y") true,
      .notifyWrite (.write (bytes "b:2")), .processNotify ⟨some [.connected 5 false], []⟩ [] 2,
      .close (bytes "b") 2, .cron 3, .write (bytes "a") 1 (bytes "z") true,
      .notifyWrite (.write (bytes "a:1")), .processNotify ⟨some [.inProgress 5], []⟩ [] 4,
      .cron 100]) :=
  run_agree parseIpPortString_spec 60 (by decide +kernel)

/-- A connection asks to be closed and is then closed by an error; its descriptor is that of a
connection to another address when the notification is read. -/
theorem not_agree_stale : ¬Agree (run (step parseIpPortString) { keepaliveTimeout := 60 }
    [.write (bytes "a") 1 (bytes "x") true, .notifyWrite (.write (bytes "a:1")),
      .processNotify ⟨some [.connected 5 false], []⟩ [] 0,
      .write (bytes "b") 2 (bytes "y") true, .notifyWrite (.write (bytes "b:2")),
      .notifyClose 5 (bytes "a:1"), .connEvent 5 { epollin := true } { read := .readClose } false 1,
      .processNotify ⟨some [.connected 5 false], []⟩ [] 2, .processNotify {} [] 3]) := fun h => by
  have := (h.same (bytes "b:2") ⟨1, 5, bytes "b:2"⟩).mp (by decide +kernel)
  exact absurd this.1 (by decide +kernel)

end Pink.Client.Indexes
