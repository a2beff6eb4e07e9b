import Pink.Server.Workers

/-! # Who has a descriptor

The account of the descriptors of a `DispatchThread`. A descriptor that is open is in one place:
with the dispatcher, in the pipe of one worker, in the map or the vectors of one worker, with the
caller of `MoveConnOut`, with a caller of `MoveConnIn`, or with a connection that could not be set
up. `Inv p` allows for those in `p`, which have left one place and are still to reach the next one;
a step of a worker is one of `Works`. So a descriptor that waits in a pipe is in no map, `close` is
never called for one that is not open, and every worker keeps the account of its own connections
(`descriptors_accounted`).

The interleavings have to be orderly. What goes wrong in one that is not is shown for a connection
that is moved out before it is erased (`stale_moved_out`) and for an item that is handled too late
(`crashed_late_item`). -/

namespace Pink.Server.Owners

open Pink.Redis.Wire Pink.Lib.Runs Pink.Server.Conns Pink.Server.Dispatch Pink.Server.Workers
open Pink.Server.Dispatch.DispatchThread
open Pink.Server.Threads (Setup Mask Outcome)

variable {n k : ℕ}

/-! ### In how many places a descriptor is -/

/-- The item the dispatcher is about to hand out. -/
def item : DispatchPc → Option PinkItem
  | .handling ti | .finding ti _ _ => some ti
  | .top | .closing _ | .found _ => none

/-- The descriptor that is with the dispatcher. -/
def dispatchHand : DispatchPc → List ℤ
  | .closing fd => [fd]
  | .handling ti | .finding ti _ _ => [ti.fd]
  | .top | .found _ => []

/-- The descriptor that is with a caller of `MoveConnIn`. -/
def callHand : CallPc n → List ℤ
  | .called m _ | .chosen m _ _ => [m.conn.fd]
  | .registered _ c => [c.fd]
  | .none | .inserted | .storing _ => []

/-- The descriptors of the connections that were moved out. -/
def movedFds (ms : List Moved) : List ℤ := ms.map fun m => m.conn.fd

/-- **In how many places a descriptor is.** -/
def places (d : DispatchThread n k) (fd : ℤ) : ℕ :=
  ∑ i, (held (d.workers i)).count fd + ∑ t, (callHand (d.callers t)).count fd +
    ((movedFds d.outside).count fd + d.leaked.count fd + (dispatchHand d.pc).count fd)

/-- A connection that is moved in is not a new one, and it has its number before it enters the
map. -/
def CallSound (ws : Fin n → Worker) : CallPc n → Prop
  | .called _ type | .chosen _ type _ => type ≠ .kNotiConnect
  | .registered i c => Unused (ws i).state c
  | .none | .inserted | .storing _ => True

/-- The account of the descriptors, when those in `p` are between two places. -/
structure Inv (p : List ℤ) (d : DispatchThread n k) : Prop where
  worker : ∀ i, WorkerInv (d.workers i)
  caller : ∀ t, CallSound d.workers (d.callers t)
  item : ∀ ti ∈ item d.pc, ti.notifyType = .kNotiConnect
  places : ∀ fd, places d fd + p.count fd = if fd ∈ d.opened then 1 else 0
  stale : d.stale = false

/-- One summand changes. -/
theorem sum_update {ι α : Type*} [Fintype ι] [DecidableEq ι] (g : ι → α) (i : ι) (a : α)
    (f : α → ℕ) : ∑ j, f (Function.update g i a j) + f (g i) = ∑ j, f (g j) + f a := by
  have hrest : ∑ j ∈ Finset.univ.erase i, f (Function.update g i a j) =
      ∑ j ∈ Finset.univ.erase i, f (g j) := by
    refine Finset.sum_congr rfl fun j hj => ?_
    rw [Function.update_of_ne (Finset.ne_of_mem_erase hj)]
  rw [← Finset.add_sum_erase _ _ (Finset.mem_univ i), hrest,
    ← Finset.add_sum_erase _ (fun j => f (g j)) (Finset.mem_univ i), Function.update_self]
  omega

section Account
variable {d : DispatchThread n k} {p q : List ℤ} {i : Fin n} {t : Fin k} {fd : ℤ}

/-- A descriptor that is somewhere is open. -/
theorem Inv.mem_opened_of_pos (h : Inv p d) (hpos : 0 < Owners.places d fd + p.count fd) :
    fd ∈ d.opened := by
  have hp := h.places fd
  by_contra hno
  rw [if_neg hno] at hp
  omega

/-- It is in one place. -/
theorem Inv.places_le (h : Inv p d) (fd : ℤ) : Owners.places d fd + p.count fd ≤ 1 := by
  have hp := h.places fd
  split_ifs at hp <;> omega

theorem held_le_places (d : DispatchThread n k) (i : Fin n) (fd : ℤ) :
    (held (d.workers i)).count fd ≤ places d fd := by
  have hle := Finset.single_le_sum (f := fun j => (held (d.workers j)).count fd)
    (fun _ _ => Nat.zero_le _) (Finset.mem_univ i)
  unfold places
  omega

theorem callHand_le_places (d : DispatchThread n k) (t : Fin k) (fd : ℤ) :
    (callHand (d.callers t)).count fd ≤ places d fd := by
  have hle := Finset.single_le_sum (f := fun u => (callHand (d.callers u)).count fd)
    (fun _ _ => Nat.zero_le _) (Finset.mem_univ t)
  unfold places
  omega

/-- A descriptor that is between two places is with nobody. -/
theorem Inv.places_eq_zero (h : Inv p d) (hp : fd ∈ p) : Owners.places d fd = 0 := by
  have hle := h.places_le fd
  have hpos := List.count_pos_iff.mpr hp
  omega

theorem Inv.not_mem_settle (h : Inv p d) (hp : fd ∈ p) (i : Fin n) :
    fd ∉ (settle (d.workers i).pc (d.workers i).state).conns := by
  intro hmem
  have hzero := h.places_eq_zero hp
  have hle := held_le_places d i fd
  rw [count_held, count_fds, if_pos hmem] at hle
  omega

/-! ### Who gets it -/

/-- One worker takes a step. -/
theorem Inv.setWorker (h : Inv p d) {w : Worker} (hw : Works p q (d.workers i) w) :
    Inv q (d.setWorker i w) where
  worker j := by
    unfold DispatchThread.setWorker
    by_cases hj : j = i
    · subst hj; simpa using hw.inv
    · simpa [hj] using h.worker j
  caller t := by
    have hc := h.caller t
    have hfd : ∀ j c, d.callers t = .registered j c → c.fd ∉ p := by
      intro j c hpc hp
      have hzero := h.places_eq_zero hp
      have hle := callHand_le_places d t c.fd
      rw [hpc] at hle
      unfold callHand at hle
      rw [List.count_singleton_self] at hle
      omega
    unfold DispatchThread.setWorker
    dsimp only
    cases hpc : d.callers t with
    | registered j c =>
      rw [hpc] at hc
      unfold CallSound at hc ⊢
      dsimp only at hc ⊢
      by_cases hj : j = i
      · subst hj
        rw [Function.update_self]
        exact hw.unused c hc (hfd j c hpc)
      · rw [Function.update_of_ne hj]
        exact hc
    | none => exact trivial
    | called m type => rw [hpc] at hc; exact hc
    | chosen m type j => rw [hpc] at hc; exact hc
    | inserted => exact trivial
    | storing lastThread => exact trivial
  item := h.item
  places x := by
    have hsum := sum_update d.workers i w fun w => (held w).count x
    have hp := h.places x
    have hx := hw.count x
    unfold Owners.places DispatchThread.setWorker at *
    dsimp only at hsum hp ⊢
    rw [← hp]
    omega
  stale := h.stale

theorem Inv.setPc (h : Inv p d) {pc : DispatchPc}
    (hi : ∀ ti ∈ Owners.item pc, ti.notifyType = .kNotiConnect)
    (hc : ∀ x, (dispatchHand d.pc).count x + p.count x = (dispatchHand pc).count x + q.count x) :
    Inv q { d with pc := pc } where
  worker := h.worker
  caller := h.caller
  item := hi
  places x := by
    have hp := h.places x
    have hx := hc x
    unfold Owners.places at *
    dsimp only at hp ⊢
    rw [← hp]
    omega
  stale := h.stale

theorem Inv.setCaller (h : Inv p d) {pc : CallPc n} (hs : CallSound d.workers pc)
    (hc : ∀ x, (callHand (d.callers t)).count x + p.count x =
      (callHand pc).count x + q.count x) : Inv q (d.setCaller t pc) where
  worker := h.worker
  caller u := by
    unfold DispatchThread.setCaller
    by_cases hu : u = t
    · subst hu; simpa using hs
    · simpa [hu] using h.caller u
  item := h.item
  places x := by
    have hsum := sum_update d.callers t pc fun pc => (callHand pc).count x
    have hp := h.places x
    have hx := hc x
    unfold Owners.places DispatchThread.setCaller at *
    dsimp only at hsum hp ⊢
    rw [← hp]
    omega
  stale := h.stale

theorem Inv.setOutside (h : Inv p d) {ms : List Moved}
    (hc : ∀ x, (movedFds d.outside).count x + p.count x = (movedFds ms).count x + q.count x) :
    Inv q { d with outside := ms } where
  worker := h.worker
  caller := h.caller
  item := h.item
  places x := by
    have hp := h.places x
    have hx := hc x
    unfold Owners.places at *
    dsimp only at hp ⊢
    rw [← hp]
    omega
  stale := h.stale

/-- A connection leaves the caller of `MoveConnOut`. -/
theorem Inv.comesBack (h : Inv [] d) {m : Moved} (hm : m ∈ d.outside) :
    Inv [m.conn.fd] { d with outside := d.outside.erase m } := by
  refine h.setOutside fun x => ?_
  have hperm := (List.perm_cons_erase hm).map fun m => m.conn.fd
  have hx := hperm.count_eq x
  unfold movedFds
  rw [List.map_cons, List.count_cons] at hx
  rw [hx, List.count_singleton, List.count_nil]
  omega

theorem Inv.leak {fds : List ℤ} (h : Inv fds d) : Inv [] { d with leaked := d.leaked ++ fds } where
  worker := h.worker
  caller := h.caller
  item := h.item
  places x := by
    have hp := h.places x
    unfold Owners.places at *
    dsimp only at hp ⊢
    rw [← hp, List.count_append, List.count_nil]
    omega
  stale := h.stale

theorem Inv.close (h : Inv (fd :: p) d) : Inv p (d.close fd) := by
  have hmem : fd ∈ d.opened := h.mem_opened_of_pos (by rw [List.count_cons_self]; omega)
  refine ⟨h.worker, h.caller, h.item, fun x => ?_, ?_⟩
  · have hx := h.places x
    have hsame : Owners.places (d.close fd) x = Owners.places d x := rfl
    have hopen : (d.close fd).opened = d.opened.erase fd := rfl
    simp only [hsame, hopen, Finset.mem_erase]
    by_cases he : x = fd
    · subst he
      rw [if_pos hmem, List.count_cons_self] at hx
      rw [if_neg fun hh => hh.1 rfl]
      omega
    · rw [List.count_cons_of_ne (Ne.symm he)] at hx
      rw [hx]
      simp [he]
  · unfold DispatchThread.close
    simp [h.stale, hmem]

theorem Inv.foldl_close : ∀ {fds : List ℤ} {d : DispatchThread n k}, Inv (fds ++ p) d →
    Inv p (fds.foldl DispatchThread.close d) := by
  intro fds
  induction fds with
  | nil => exact fun h => h
  | cons fd fds ih => exact fun h => ih (Inv.close h)

theorem Inv.onWorker (h : Inv p d) {x : Worker × List ℤ}
    (hw : Works p (x.2 ++ q) (d.workers i) x.1) : Inv q (d.onWorker i x) :=
  Inv.foldl_close (h.setWorker hw)

end Account

/-! ### The steps keep the account -/

/-- The worker is not still to erase the descriptor of the connection that is to enter its map. -/
def Clear (ws : Fin n → Worker) : CallPc n → Prop
  | .registered i c => (ws i).pc ≠ .erasing c.fd
  | .none | .called _ _ | .chosen _ _ _ | .inserted | .storing _ => True

instance (ws : Fin n → Worker) (pc : CallPc n) : Decidable (Clear ws pc) := by
  cases pc <;> unfold Clear <;> infer_instance

/-- What a step has to respect. Workers do not drop connections. A connection is not moved in as a
new one, and the worker handles the item that moves it in when it has entered the map, or has left
it and its descriptor was not used again. It neither leaves the map while the worker is busy with
its descriptor, nor enters it while the worker is still to erase the same one. -/
def Orderly (d : DispatchThread n k) : Op n k → Prop
  | .handleItem i _ _ => ∀ ti ∈ (d.workers i).pipe.head?, Timely d.opened (d.workers i) ti
  | .event i _ _ _ => ∀ c ∈ (d.workers i).fired.head?, c ∉ (d.workers i).state.waitingDel
  | .cron i _ => kKillAllConnsTask ∈ (d.workers i).state.deletingConnIpport →
      (d.workers i).state.conns.isEmpty
  | .moveConnOut i fd => ¬Busy (d.workers i) fd
  | .moveConnIn _ _ type => type ≠ .kNotiConnect
  | .call t => Clear d.workers (d.callers t)
  | _ => True

instance (d : DispatchThread n k) : ∀ op, Decidable (Orderly d op)
  | .handleItem i _ _ => inferInstanceAs
      (Decidable (∀ ti ∈ (d.workers i).pipe.head?, Timely d.opened (d.workers i) ti))
  | .event i _ _ _ => inferInstanceAs
      (Decidable (∀ c ∈ (d.workers i).fired.head?, c ∉ (d.workers i).state.waitingDel))
  | .cron i _ => inferInstanceAs (Decidable (kKillAllConnsTask ∈
      (d.workers i).state.deletingConnIpport → (d.workers i).state.conns.isEmpty))
  | .moveConnOut i fd => inferInstanceAs (Decidable (¬Busy (d.workers i) fd))
  | .moveConnIn _ _ type => inferInstanceAs (Decidable (type ≠ .kNotiConnect))
  | .call t => inferInstanceAs (Decidable (Clear d.workers (d.callers t)))
  | .accept _ | .dispatch | .add _ | .poll _ _ | .erase _ | .cleanup _ | .closeNext _
  | .closeOutside _ | .kill _ _ | .insertKill _ => .isTrue trivial

section Steps
variable {d : DispatchThread n k} {i : Fin n} {t : Fin k} {fd : ℤ}

/-- A new connection is accepted. -/
theorem Inv.accept (h : Inv [] d) (a : Accepted) (hab : (d.accept a).aborted = false) :
    Inv [] (d.accept a) := by
  unfold DispatchThread.accept at hab ⊢
  split_ifs at hab ⊢ with hno
  · exact h
  all_goals
    rw [not_or, not_not] at hno
    obtain ⟨htop, hfree⟩ := hno
    have hopen : Inv [a.fd] { d with opened := insert a.fd d.opened } := by
      refine ⟨h.worker, h.caller, h.item, fun x => ?_, h.stale⟩
      have hx := h.places x
      have hsame : Owners.places { d with opened := insert a.fd d.opened } x =
          Owners.places d x := rfl
      rw [hsame, List.count_singleton]
      rw [List.count_nil, Nat.add_zero] at hx
      rw [hx]
      by_cases he : x = a.fd
      · subst he
        simp [hfree]
      · simp [he, Ne.symm he]
    have hgive : ∀ pc : DispatchPc, (∀ ti ∈ Owners.item pc, ti.notifyType = .kNotiConnect) →
        dispatchHand pc = [a.fd] →
        Inv [] { d with opened := insert a.fd d.opened, pc := pc } := by
      intro pc hi hpc
      refine hopen.setPc hi fun x => ?_
      have hnone : dispatchHand d.pc = [] := by rw [htop]; rfl
      rw [hnone, hpc, List.count_nil]
      omega
  · exact hgive _ (by simp [Owners.item]) rfl
  · split
    · exact hgive _ (by simp [Owners.item]) rfl
    case _ ip hip =>
      rw [hip] at hab
      dsimp only at hab
      unfold DispatchThread.handleNewConn at hab ⊢
      split
      case _ hti => rw [hti] at hab; exact absurd hab (by simp)
      case _ ti hti =>
        unfold PinkItem.new at hti
        split_ifs at hti
        obtain rfl := Option.some.inj hti
        exact hgive _ (by simp [Owners.item]) rfl

theorem Inv.dispatch (h : Inv [] d) (hab : d.dispatch.aborted = false) : Inv [] d.dispatch := by
  have hitem := h.item
  unfold DispatchThread.dispatch at hab ⊢
  split
  · exact h
  case _ fd hpc =>
    have htop : Inv [fd] { d with pc := .top } := by
      refine h.setPc (by simp [Owners.item]) fun x => ?_
      rw [hpc]
      simp [dispatchHand]
    exact htop.close
  case _ ti hpc =>
    rw [hpc] at hitem
    refine h.setPc hitem fun x => ?_
    rw [hpc]
    rfl
  case _ ti cnt nextThread hpc =>
    rw [hpc] at hitem hab
    dsimp only at hab
    have hty : ti.notifyType = .kNotiConnect := hitem ti rfl
    split_ifs at hab ⊢ with hcnt hlt hfull
    · -- the item goes from the dispatcher into a pipe
      have hfound : Inv [ti.fd] { d with pc := .found nextThread } := by
        refine h.setPc (by simp [Owners.item]) fun x => ?_
        rw [hpc]
        simp [dispatchHand]
      have hpush := (hfound.worker ⟨nextThread, hlt⟩).moveConnIn ti
      rw [if_pos hty] at hpush
      have hgive := hfound.setWorker hpush
      exact ⟨hgive.worker, hgive.caller, hgive.item, hgive.places, hgive.stale⟩
    · exact absurd rfl hfull
    · refine h.setPc (by simp [Owners.item]) fun x => ?_
      rw [hpc]
      rfl
  case _ nextThread hpc =>
    have htop : Inv [] { d with pc := .top } := by
      refine h.setPc (by simp [Owners.item]) fun x => ?_
      rw [hpc]
      rfl
    exact ⟨htop.worker, htop.caller, htop.item, htop.places, htop.stale⟩

theorem Inv.handleItem (h : Inv [] d) (setup : Setup) (now : ℤ)
    (ht : ∀ ti ∈ (d.workers i).pipe.head?, Timely d.opened (d.workers i) ti) :
    Inv [] { d.onWorker i ((d.workers i).handleItem d.opened setup now) with
      leaked := d.leaked ++ (d.workers i).lost setup } := by
  have hone := fun fd => (held_le_places d i fd).trans (h.places_le fd)
  have hopen : ∀ fd ∈ (settle (d.workers i).pc (d.workers i).state).conns, fd ∈ d.opened := by
    intro fd hfd
    have hle := held_le_places d i fd
    rw [count_held, count_fds, if_pos hfd] at hle
    exact h.mem_opened_of_pos (by omega)
  have hnew : ∀ fd ∈ fresh (d.workers i),
      fd ∉ (settle (d.workers i).pc (d.workers i).state).conns := by
    intro fd hfr hfd
    have hle := (held_le_places d i fd).trans ((Nat.le_add_right _ _).trans (h.places_le fd))
    have hpos := List.count_pos_iff.mpr hfr
    rw [count_held, count_fds, if_pos hfd] at hle
    omega
  have hw := (h.worker i).handleItem hopen hnew ht setup now
  have hstep := h.onWorker hw
  have hleaked : ∀ (fds : List ℤ) (e : DispatchThread n k),
      (fds.foldl DispatchThread.close e).leaked = e.leaked := by
    intro fds
    induction fds with
    | nil => exact fun _ => rfl
    | cons fd fds ih => exact fun e => ih (e.close fd)
  have hleak := hstep.leak
  rw [show (d.onWorker i ((d.workers i).handleItem d.opened setup now)).leaked = d.leaked from
    hleaked _ _] at hleak
  exact hleak

theorem Inv.moveConnOut (h : Inv [] d) (hb : ¬Busy (d.workers i) fd) :
    Inv [] (d.moveConnOut i fd) := by
  unfold DispatchThread.moveConnOut
  dsimp only
  split
  · exact h
  case _ c hc =>
    have hw := (h.worker i).moveConnOut hb hc
    have hgone := h.setWorker hw
    have hget := (settle_moveConnOut (fun he => hb (Or.inl he)) hc).1
    have hfd : c.fd = fd := (h.worker i).account.key fd c hget
    refine hgone.setOutside fun x => ?_
    unfold movedFds
    simp [DispatchThread.setWorker, hfd]

theorem Inv.moveConnIn (h : Inv [] d) {type : NotifyType} (hty : type ≠ .kNotiConnect) :
    Inv [] (d.moveConnIn t fd type) := by
  unfold DispatchThread.moveConnIn
  split
  case _ m hnone hm =>
    have hback := h.comesBack (List.mem_of_find?_eq_some hm)
    refine hback.setCaller hty fun x => ?_
    rw [hnone]
    simp [callHand]
  · exact h

theorem Inv.call (h : Inv [] d) (hab : (d.call t).aborted = false)
    (hclear : Clear d.workers (d.callers t)) :
    Inv [] (d.call t) := by
  have hcall := h.caller t
  unfold DispatchThread.call at hab ⊢
  split
  · exact h
  case _ m type hpc =>
    rw [hpc] at hcall hab
    dsimp only at hab
    split_ifs at hab ⊢
    refine h.setCaller hcall fun x => ?_
    rw [hpc]
    rfl
  case _ m type i hpc =>
    rw [hpc] at hcall hab
    dsimp only at hab ⊢
    split
    case _ hti => rw [hti] at hab; exact absurd hab (by simp)
    case _ ti hti =>
      have hnew := (h.worker i).unused_renew m
      have hrenew := h.setWorker ((h.worker i).renew m)
      have hty : ti.notifyType ≠ .kNotiConnect := by
        unfold PinkItem.new at hti
        split_ifs at hti
        obtain rfl := Option.some.inj hti
        exact hcall
      have hpush := (hrenew.worker i).moveConnIn ti
      rw [if_neg hty] at hpush
      have hgive := hrenew.setWorker hpush
      have hhand : Inv [] ((d.setWorker i { d.workers i with
          state := (renew (d.workers i).state m).2 }).hand i ti) :=
        ⟨hgive.worker, hgive.caller, hgive.item, hgive.places, hgive.stale⟩
      refine hhand.setCaller ?_ fun x => ?_
      · unfold CallSound DispatchThread.hand DispatchThread.setWorker Worker.moveConnIn
        simpa using hnew
      · have hsame : ((d.setWorker i { d.workers i with
            state := (renew (d.workers i).state m).2 }).hand i ti).callers t = d.callers t := rfl
        rw [hsame, hpc]
        rfl
  case _ i c hpc =>
    rw [hpc] at hcall hclear
    have hins : Inv [c.fd] (d.setCaller t .inserted) := by
      refine h.setCaller trivial fun x => ?_
      rw [hpc]
      simp [callHand]
    have hput := (hins.worker i).put (hins.not_mem_settle (List.mem_singleton_self _) i) hcall
      hclear
    exact hins.setWorker hput
  case _ hpc =>
    refine h.setCaller trivial fun x => ?_
    rw [hpc]
    rfl
  case _ lastThread hpc =>
    have hend : Inv [] (d.setCaller t .none) := by
      refine h.setCaller trivial fun x => ?_
      rw [hpc]
      rfl
    exact ⟨hend.worker, hend.caller, hend.item, hend.places, hend.stale⟩

theorem Inv.closeOutside (h : Inv [] d) (fd : ℤ) : Inv [] (d.closeOutside fd) := by
  unfold DispatchThread.closeOutside
  rcases hm : d.findOutside fd with _ | m
  · exact h
  have hback := h.comesBack (List.mem_of_find?_eq_some hm)
  have hfd : m.conn.fd = fd := by simpa using List.find?_some hm
  rw [hfd] at hback
  exact hback.close

theorem Inv.kill (h : Inv [] d) (i : Fin n) (ipPort : Bytes) : Inv [] (d.kill i ipPort) := by
  have hw := h.setWorker ((h.worker i).findKill ipPort)
  exact ⟨hw.worker, hw.caller, hw.item, hw.places, hw.stale⟩

theorem Inv.insertKill (h : Inv [] d) (j : ℕ) : Inv [] (d.insertKill j) := by
  unfold DispatchThread.insertKill
  rcases d.killing[j]? with _ | ⟨i, ipPort⟩
  · exact h
  · have hw := h.setWorker ((h.worker i).insertKill ipPort)
    exact ⟨hw.worker, hw.caller, hw.item, hw.places, hw.stale⟩

/-- **Every orderly step keeps the account**, unless the process ends. -/
theorem Inv.step (h : Inv [] d) {op : Op n k} (hop : Orderly d op)
    (hab : (Dispatch.step d op).aborted = false) : Inv [] (Dispatch.step d op) := by
  unfold Dispatch.step at hab ⊢
  split_ifs at hab ⊢
  · exact h
  cases op with
  | accept a => exact h.accept a hab
  | dispatch => exact h.dispatch hab
  | handleItem i setup now => exact h.handleItem setup now hop
  | add i => exact h.onWorker ((h.worker i).add d.opened)
  | poll i fired => exact h.onWorker ((h.worker i).poll fired)
  | event i mask o now =>
    refine h.onWorker ?_
    rw [List.append_nil]
    exact (h.worker i).event hop mask o now
  | erase i => exact h.onWorker (h.worker i).erase
  | cron i now =>
    exact h.onWorker ((h.worker i).doCronTask now fun hk => Std.ExtTreeMap.isEmpty_iff.mp (hop hk))
  | cleanup i => exact h.onWorker (h.worker i).cleanup
  | closeNext i =>
    refine h.onWorker ?_
    rw [List.append_nil]
    exact (h.worker i).closeNext
  | moveConnOut i fd => exact h.moveConnOut hop
  | moveConnIn t fd type => exact h.moveConnIn hop
  | call t => exact h.call hab hop
  | closeOutside fd => exact h.closeOutside fd
  | kill i ipPort => exact h.kill i ipPort
  | insertKill j => exact h.insertKill j

end Steps

theorem inv_start (n k : ℕ) (timeout : ℤ) : Inv [] (start n k timeout) where
  worker _ :=
    ⟨Threads.inv_start timeout, rfl, by simp [start], List.nodup_nil, by simp [start],
      by simp [start]⟩
  caller _ := trivial
  item := by simp [Owners.item, start]
  places fd := by
    have hheld : ∀ i, held ((start n k timeout).workers i) = [] := fun _ => rfl
    have hcall : ∀ t, callHand ((start n k timeout).callers t) = [] := fun _ => rfl
    unfold places
    simp only [hheld, hcall]
    simp [start, movedFds, dispatchHand]
  stale := rfl

theorem inv_run (timeout : ℤ) {ops : List (Op n k)}
    (h : Guarded step Orderly (start n k timeout) ops)
    (hab : (run step (start n k timeout) ops).aborted = false) :
    Inv [] (run step (start n k timeout) ops) := by
  revert hab
  refine run_inv (fun d : DispatchThread n k => d.aborted = false → Inv [] d)
    (fun d op hd hop ha => ?_) (fun _ => inv_start n k timeout) h
  by_cases hd' : d.aborted = false
  · exact (hd hd').step hop ha
  · unfold step at ha
    rw [if_pos (by simpa using hd')] at ha
    exact absurd ha hd'

/-! ### All descriptors are accounted for -/

/-- The descriptors that are open and in no map. -/
def elsewhere (d : DispatchThread n k) : ℕ :=
  ∑ i, ((fresh (d.workers i)).length + (vectors (d.workers i).pc).length) +
    ∑ t, (callHand (d.callers t)).length +
    (d.outside.length + d.leaked.length + (dispatchHand d.pc).length)

/-- The connections that are closed and still to be erased. -/
def late (d : DispatchThread n k) : ℕ := ∑ i, (lateIn (d.workers i).pc)

/-- Every descriptor that is open is in one place, none was closed that was not open, no connection
was used that is gone, and every worker has closed what left its map once. -/
structure Accounted (d : DispatchThread n k) : Prop where
  places : ∀ fd, places d fd = if fd ∈ d.opened then 1 else 0
  connNum : d.connNum + elsewhere d = d.opened.card + late d
  stale : d.stale = false
  alive : ∀ i, (d.workers i).state.crashed = false
  closedOnce : ∀ i, vectors (d.workers i).pc = [] →
    Threads.ClosedOnce (settle (d.workers i).pc (d.workers i).state)

theorem sum_count (f : Finset ℤ) {l : List ℤ} (hl : ∀ x ∈ l, x ∈ f) :
    ∑ x ∈ f, l.count x = l.length := by
  have h := Multiset.sum_count_eq_card (s := f) (m := (l : Multiset ℤ)) hl
  simpa using h

/-- `conn_num` is the number of open descriptors, less those that are in no map, with those that are
closed and still to be erased. -/
theorem Inv.connNum {d : DispatchThread n k} (h : Inv [] d) :
    d.connNum + elsewhere d = d.opened.card + late d := by
  have hin : ∀ x, 0 < Owners.places d x → x ∈ d.opened := fun x hx =>
    h.mem_opened_of_pos (Nat.lt_of_lt_of_le hx (Nat.le_add_right _ _))
  have hheld : ∀ i, ∀ x ∈ held (d.workers i), x ∈ d.opened := fun i x hx =>
    hin x (Nat.lt_of_lt_of_le (List.count_pos_iff.mpr hx) (held_le_places d i x))
  have hcall : ∀ t, ∀ x ∈ callHand (d.callers t), x ∈ d.opened := fun t x hx =>
    hin x (Nat.lt_of_lt_of_le (List.count_pos_iff.mpr hx) (callHand_le_places d t x))
  have hrest : ∀ x ∈ movedFds d.outside ++ d.leaked ++ dispatchHand d.pc, x ∈ d.opened := by
    intro x hx
    have hpos := List.count_pos_iff.mpr hx
    rw [List.count_append, List.count_append] at hpos
    refine hin x ?_
    unfold Owners.places
    omega
  have hone : ∑ x ∈ d.opened, Owners.places d x = d.opened.card := by
    rw [Finset.card_eq_sum_ones]
    refine Finset.sum_congr rfl fun x hx => ?_
    have hp := h.places x
    rwa [if_pos hx] at hp
  have hsum : ∑ x ∈ d.opened, Owners.places d x = ∑ i, (held (d.workers i)).length +
      ∑ t, (callHand (d.callers t)).length +
      (d.outside.length + d.leaked.length + (dispatchHand d.pc).length) := by
    have hlen : (movedFds d.outside ++ d.leaked ++ dispatchHand d.pc).length =
        d.outside.length + d.leaked.length + (dispatchHand d.pc).length := by
      unfold movedFds
      simp [Nat.add_assoc]
    rw [← hlen, ← sum_count _ hrest]
    unfold Owners.places
    simp only [List.count_append]
    rw [Finset.sum_add_distrib, Finset.sum_add_distrib, Finset.sum_comm,
      Finset.sum_comm (s := d.opened) (t := Finset.univ)]
    congr 2
    · exact Finset.sum_congr rfl fun i _ => sum_count _ (hheld i)
    · exact Finset.sum_congr rfl fun t _ => sum_count _ (hcall t)
  have hsize : ∑ i, (held (d.workers i)).length + late d =
      d.connNum + ∑ i, ((fresh (d.workers i)).length + (vectors (d.workers i).pc).length) := by
    unfold DispatchThread.connNum late
    rw [← Finset.sum_add_distrib, ← Finset.sum_add_distrib]
    exact Finset.sum_congr rfl fun i _ => (h.worker i).length_held
  unfold elsewhere
  omega

/-- **In every orderly interleaving of the dispatcher, its workers and those who move and kill
connections, every open descriptor is in one place**, and each worker closes its own and no
others. -/
theorem descriptors_accounted (timeout : ℤ) {ops : List (Op n k)}
    (h : Guarded step Orderly (start n k timeout) ops)
    (hab : (run step (start n k timeout) ops).aborted = false) :
    Accounted (run step (start n k timeout) ops) := by
  have hinv := inv_run timeout h hab
  refine ⟨hinv.places, hinv.connNum, hinv.stale, fun i => (hinv.worker i).alive, fun i hv => ?_⟩
  have haccount := (hinv.worker i).account
  rw [hv] at haccount
  exact Threads.closedOnce_of_inv haccount

/-- Two workers and two callers of `MoveConnIn`. Connection `7` is moved out and in again, and `9`
is refused in the meantime; connection `8` is closed by its worker, and before it is erased its
descriptor is accepted again and goes to the other worker. -/
theorem descriptors_accounted_busy : Accounted (run step (start 2 2 60)
    [.accept ⟨7, true, some (bytes "a"), 1⟩, .dispatch, .dispatch, .dispatch, .handleItem 0 .ok 0,
      .add 0, .accept ⟨8, true, some (bytes "b"), 2⟩, .dispatch, .dispatch, .dispatch,
      .handleItem 1 .ok 0, .add 1, .moveConnOut 0 7, .moveConnIn 1 7 .kNotiWait,
      .accept ⟨9, true, none, 3⟩, .call 1, .dispatch, .call 1, .call 1,
      .poll 1 [⟨0, 8, bytes "b:2"⟩], .event 1 { epollhup := true } {} 1,
      .accept ⟨8, true, some (bytes "c"), 4⟩, .dispatch, .dispatch, .handleItem 0 .ok 1,
      .handleItem 0 .ok 1, .erase 1, .dispatch]) :=
  descriptors_accounted 60 (by decide +kernel) (by decide +kernel)

/-- A connection is moved out between its `close` and the `conns_.erase(fd)` behind it: whoever has
it closes its descriptor once more. -/
theorem stale_moved_out : (run step (start 1 0 60)
    [.accept ⟨7, true, some (bytes "a"), 1⟩, .dispatch, .dispatch, .dispatch, .handleItem 0 .ok 0,
      .add 0, .poll 0 [⟨0, 7, bytes "a:1"⟩], .event 0 { epollhup := true } {} 1, .moveConnOut 0 7,
      .closeOutside 7]).stale = true := by
  decide +kernel

/-- A connection that was moved in is killed before the worker reads its item, and its descriptor is
accepted again: the worker adds the old connection to its epoll set, and the next event uses it when
it is gone. -/
theorem crashed_late_item : ((run step (start 1 1 60)
    [.accept ⟨7, true, some (bytes "a"), 1⟩, .dispatch, .dispatch, .dispatch, .handleItem 0 .ok 0,
      .add 0, .moveConnOut 0 7, .moveConnIn 0 7 .kNotiWait, .call 0, .call 0, .call 0,
      .kill 0 (bytes "a:1"), .insertKill 0, .cron 0 1, .closeNext 0, .closeNext 0,
      .accept ⟨7, true, some (bytes "b"), 2⟩, .dispatch, .dispatch, .handleItem 0 .ok 1,
      .poll 0 [⟨1, 7, bytes "a:1"⟩], .event 0 { epollhup := true } {} 2]).workers 0).state.crashed =
        true := by
  decide +kernel

end Pink.Server.Owners
