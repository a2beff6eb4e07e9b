import Pink.Backend.Messages

/-! # The cron task of the backend

`DoCronTask` goes through `conns_` and erases from it. The iterator is at the first entry that is
still there, so an entry that is erased before the loop gets to it is not visited. An idle
connection is erased twice, by its descriptor and by the iterator: under its own descriptor this is
the same entry, and the iterator is no longer valid the second time.

The loop does what it should exactly if every idle connection is out of the way of this (`Apart`,
`cronTask_exact_iff`). `AddConnection` registers every connection under its own descriptor, and then
it does so exactly if no connection is idle (`apart_iff`); `doCronTask` of `Backend.Thread` is the
loop for such contents (`cronTask_eq`). -/

namespace Pink.Backend.Idle

open Pink.Server.Conns Pink.Backend.Thread

/-! ### The loop -/

structure Cron where
  thread : BackendThread
  /-- The entries the iterator was at. -/
  visited : List (ℤ × Conn) := []
  closes : List ℤ := []
  /-- The calls of `FdTimeoutHandle`, with the descriptor and the address of a connection. -/
  timeouts : List Conn := []
  /-- An iterator was used whose entry had been erased. -/
  invalid : Bool := false

/-- A connection is closed and reported, and erased by its descriptor. -/
def Cron.timeOut (x : Cron) (conn : Conn) : Cron :=
  { x with
    thread := { x.thread with
      openFds := x.thread.openFds.erase conn.fd
      conns := x.thread.conns.erase conn.fd
      connectingFds := x.thread.connectingFds.erase conn.fd }
    closes := x.closes ++ [conn.fd]
    timeouts := x.timeouts ++ [conn] }

/-- `conns_.erase(iter)` -/
def Cron.eraseAt (x : Cron) (fd : ℤ) : Cron :=
  { x with thread := { x.thread with conns := x.thread.conns.erase fd } }

/-- The loop of `DoCronTask`, with the entries that were in front of the iterator at the start. -/
def cronLoop (now : ℤ) : List (ℤ × Conn) → Cron → Cron
  | [], x => x
  | (fd, conn) :: rest, x =>
    if fd ∉ x.thread.conns then cronLoop now rest x
    else
      let x := { x with visited := x.visited ++ [(fd, conn)] }
      if x.thread.timedOut now conn then
        if fd ∈ (x.timeOut conn).thread.conns then
          cronLoop now rest ((x.timeOut conn).eraseAt fd)
        else { x.timeOut conn with invalid := true }
      else cronLoop now rest x

def cronTask (s : BackendThread) (now : ℤ) : Cron := cronLoop now s.conns.toList { thread := s }

/-- The idle connections, in the order of the map. -/
def idle (s : BackendThread) (now : ℤ) : List Conn :=
  (s.conns.toList.map Prod.snd).filter (s.timedOut now)

/-- Every connection is visited once, the idle ones are closed, reported and removed, and no
iterator is used that is not valid. -/
structure Exact (s : BackendThread) (now : ℤ) (x : Cron) : Prop where
  valid : x.invalid = false
  visited : x.visited = s.conns.toList
  closes : x.closes = (idle s now).map Conn.fd
  timeouts : x.timeouts = idle s now
  conns : ∀ fd : ℤ, x.thread.conns[fd]? = (s.conns[fd]?).filter fun c => !s.timedOut now c

/-- The descriptor of an idle connection is not the one it is registered under, and if something is
registered under it, it is an idle connection in front. -/
def Apart (s : BackendThread) (now : ℤ) : Prop :=
  ∀ p ∈ s.conns.toList, s.timedOut now p.2 → p.2.fd ≠ p.1 ∧
    ∀ c, s.conns[p.2.fd]? = some c → s.timedOut now c ∧ p.2.fd < p.1

/-! ### One entry -/

section Loop
variable {now : ℤ} {late : Conn → Bool}

theorem getElem?_erase (m : Std.ExtTreeMap ℤ Conn compare) (fd fd' : ℤ) :
    (m.erase fd)[fd']? = if fd' = fd then none else m[fd']? := by
  rw [Std.ExtTreeMap.getElem?_erase]
  simp only [Std.compare_eq_iff_eq, @eq_comm _ fd fd']

theorem not_mem_erase {m : Std.ExtTreeMap ℤ Conn compare} {k : ℤ} (h : k ∉ m) (fd : ℤ) :
    k ∉ m.erase fd := fun hk => h (Std.ExtTreeMap.mem_of_mem_erase hk)

theorem mem_of_getElem? {m : Std.ExtTreeMap ℤ Conn compare} {k : ℤ} {c : Conn}
    (h : m[k]? = some c) : k ∈ m :=
  Std.ExtTreeMap.mem_iff_isSome_getElem?.mpr (by rw [h]; rfl)

/-- The loop visits only what is there, and nothing comes back. -/
theorem cronLoop_shrinks : ∀ (l : List (ℤ × Conn)) (x : Cron),
    (∃ vs, (cronLoop now l x).visited = x.visited ++ vs ∧ ∀ q ∈ vs, q.1 ∈ x.thread.conns) ∧
      ∀ k ∉ x.thread.conns, k ∉ (cronLoop now l x).thread.conns
  | [], x => ⟨⟨[], by simp [cronLoop], by simp⟩, fun _ h => h⟩
  | (fd, conn) :: rest, x => by
    rw [cronLoop]
    by_cases hfd : fd ∈ x.thread.conns
    swap
    · rw [if_pos hfd]
      exact cronLoop_shrinks rest x
    rw [if_neg (not_not.mpr hfd)]
    dsimp only
    have hone : ∀ q ∈ [(fd, conn)], q.1 ∈ x.thread.conns := by simpa using hfd
    split_ifs with hlate hmem
    · obtain ⟨⟨vs, hvs, hin⟩, hout⟩ := cronLoop_shrinks rest _
      refine ⟨⟨(fd, conn) :: vs, hvs.trans (List.append_assoc _ _ _), fun q hq => ?_⟩, fun k hk => ?_⟩
      · rcases List.mem_cons.mp hq with rfl | hq
        · exact hfd
        · by_contra hn
          exact not_mem_erase (not_mem_erase hn conn.fd) fd (hin q hq)
      · exact hout k (not_mem_erase (not_mem_erase hk conn.fd) fd)
    · exact ⟨⟨[(fd, conn)], rfl, hone⟩, fun k hk => not_mem_erase hk conn.fd⟩
    · obtain ⟨⟨vs, hvs, hin⟩, hout⟩ := cronLoop_shrinks rest _
      refine ⟨⟨(fd, conn) :: vs, hvs.trans (List.append_assoc _ _ _), fun q hq => ?_⟩, hout⟩
      rcases List.mem_cons.mp hq with rfl | hq
      · exact hfd
      · exact hin q hq

/-! ### The rest of the loop -/

/-- From `x` on, the loop over `l` does what it should. -/
structure Right (now : ℤ) (late : Conn → Bool) (l : List (ℤ × Conn)) (x : Cron) : Prop where
  valid : (cronLoop now l x).invalid = false
  visited : (cronLoop now l x).visited = x.visited ++ l
  closes : (cronLoop now l x).closes = x.closes ++ ((l.map Prod.snd).filter late).map Conn.fd
  timeouts : (cronLoop now l x).timeouts = x.timeouts ++ (l.map Prod.snd).filter late
  conns : ∀ fd : ℤ, (cronLoop now l x).thread.conns[fd]? =
    (x.thread.conns[fd]?).filter fun c => !late c

/-- `Apart`, of the rest of the map. -/
def Clear (late : Conn → Bool) (l : List (ℤ × Conn)) (m : Std.ExtTreeMap ℤ Conn compare) : Prop :=
  ∀ p ∈ l, late p.2 → p.2.fd ≠ p.1 ∧ ∀ c, m[p.2.fd]? = some c → late c ∧ p.2.fd < p.1

/-- What is in front of the iterator: entries in order, and all that is idle. -/
structure Ahead (late : Conn → Bool) (l : List (ℤ × Conn)) (m : Std.ExtTreeMap ℤ Conn compare) :
    Prop where
  there : ∀ p ∈ l, m[p.1]? = some p.2
  ordered : l.Pairwise fun p q => p.1 < q.1
  idle : ∀ (fd : ℤ) c, m[fd]? = some c → late c → (fd, c) ∈ l

theorem Ahead.tail {p : ℤ × Conn} {rest : List (ℤ × Conn)} {m : Std.ExtTreeMap ℤ Conn compare}
    (h : Ahead late (p :: rest) m) (hp : ¬late p.2) : Ahead late rest m := by
  refine ⟨fun q hq => h.there q (List.mem_cons_of_mem _ hq), h.ordered.of_cons, fun fd c hc hl => ?_⟩
  rcases List.mem_cons.mp (h.idle fd c hc hl) with rfl | hmem
  · exact absurd hl hp
  · exact hmem

/-- The entry at the iterator is erased. -/
theorem Ahead.erase {p : ℤ × Conn} {rest : List (ℤ × Conn)} {m : Std.ExtTreeMap ℤ Conn compare}
    (h : Ahead late (p :: rest) m) : Ahead late rest (m.erase p.1) := by
  have hlt := (List.pairwise_cons.mp h.ordered).1
  refine ⟨fun q hq => ?_, h.ordered.of_cons, fun fd c hc hl => ?_⟩
  · rw [getElem?_erase, if_neg (hlt q hq).ne']
    exact h.there q (List.mem_cons_of_mem _ hq)
  · rw [getElem?_erase] at hc
    split_ifs at hc with hfd
    rcases List.mem_cons.mp (h.idle fd c hc hl) with rfl | hmem
    · exact absurd rfl hfd
    · exact hmem

/-- An idle entry that is erased is not in the way of those ahead. -/
theorem Ahead.clear_erase {p : ℤ × Conn} {rest : List (ℤ × Conn)}
    {m : Std.ExtTreeMap ℤ Conn compare} (h : Ahead late (p :: rest) m) (hl : late p.2) :
    Clear late rest (m.erase p.1) ↔ Clear late rest m := by
  refine forall₂_congr fun q hq => imp_congr_right fun hlq => and_congr_right fun _ => ?_
  constructor
  · intro hc c hcq
    by_cases hk : q.2.fd = p.1
    · rw [hk, h.there _ List.mem_cons_self] at hcq
      obtain rfl := Option.some.inj hcq
      exact ⟨hl, hk ▸ (List.pairwise_cons.mp h.ordered).1 q hq⟩
    · exact hc c (by rw [getElem?_erase, if_neg hk]; exact hcq)
  · intro hc c hcq
    rw [getElem?_erase] at hcq
    split_ifs at hcq
    exact hc c hcq

/-- An idle entry that is there is not in front of the iterator's. -/
theorem Ahead.not_lt {p : ℤ × Conn} {rest : List (ℤ × Conn)} {m : Std.ExtTreeMap ℤ Conn compare}
    (h : Ahead late (p :: rest) m) {fd : ℤ} {c : Conn} (hc : m[fd]? = some c) (hl : late c) :
    ¬fd < p.1 := by
  rcases List.mem_cons.mp (h.idle fd c hc hl) with rfl | hmem
  · exact lt_irrefl _
  · exact ((List.pairwise_cons.mp h.ordered).1 _ hmem).le.not_gt

/-- A turn that goes on. -/
theorem right_cons {p : ℤ × Conn} {rest : List (ℤ × Conn)} {x x' : Cron}
    (h : cronLoop now (p :: rest) x = cronLoop now rest x') (hv : x'.visited = x.visited ++ [p])
    (hc : x'.closes = x.closes ++ ([p.2].filter late).map Conn.fd)
    (ht : x'.timeouts = x.timeouts ++ [p.2].filter late)
    (hm : ∀ fd : ℤ, ((x'.thread.conns[fd]?).filter fun c => !late c) =
      (x.thread.conns[fd]?).filter fun c => !late c) :
    Right now late (p :: rest) x ↔ Right now late rest x' := by
  have hsplit : ((p :: rest).map Prod.snd).filter late =
      [p.2].filter late ++ (rest.map Prod.snd).filter late := by
    rw [List.map_cons, ← List.filter_append]; rfl
  have hcons : x.visited ++ p :: rest = x'.visited ++ rest := by rw [hv]; simp
  have hcl : x.closes ++ (((p :: rest).map Prod.snd).filter late).map Conn.fd =
      x'.closes ++ ((rest.map Prod.snd).filter late).map Conn.fd := by
    rw [hc, hsplit, List.map_append, List.append_assoc]
  have htm : x.timeouts ++ ((p :: rest).map Prod.snd).filter late =
      x'.timeouts ++ (rest.map Prod.snd).filter late := by
    rw [ht, hsplit, List.append_assoc]
  constructor
  · rintro ⟨h1, h2, h3, h4, h5⟩
    rw [h] at h1 h2 h3 h4 h5
    exact ⟨h1, h2.trans hcons, h3.trans hcl, h4.trans htm, fun fd => (h5 fd).trans (hm fd).symm⟩
  · rintro ⟨h1, h2, h3, h4, h5⟩
    rw [← h] at h1 h2 h3 h4 h5
    exact ⟨h1, h2.trans hcons.symm, h3.trans hcl.symm, h4.trans htm.symm,
      fun fd => (h5 fd).trans (hm fd)⟩

/-! ### One turn -/

section Turn
variable {fd : ℤ} {conn : Conn} {rest : List (ℤ × Conn)} {x : Cron}

/-- The state in which the turn at an entry begins. -/
def Cron.visit (x : Cron) (p : ℤ × Conn) : Cron := { x with visited := x.visited ++ [p] }

theorem cronLoop_visit (hfd : fd ∈ x.thread.conns) : cronLoop now ((fd, conn) :: rest) x =
    if x.thread.timedOut now conn then
      if fd ∈ x.thread.conns.erase conn.fd then
        cronLoop now rest (((x.visit (fd, conn)).timeOut conn).eraseAt fd)
      else { (x.visit (fd, conn)).timeOut conn with invalid := true }
    else cronLoop now rest (x.visit (fd, conn)) := by
  rw [cronLoop, if_neg (not_not.mpr hfd)]
  rfl

/-- A connection that is not idle stays. -/
theorem right_stay (hfd : fd ∈ x.thread.conns) (hl : ¬late conn)
    (ht : x.thread.timedOut now = late) : Right now late ((fd, conn) :: rest) x ↔
      Right now late rest (x.visit (fd, conn)) := by
  refine right_cons ?_ rfl (by simp [hl, Cron.visit]) (by simp [hl, Cron.visit]) fun _ => rfl
  rw [cronLoop_visit hfd, ht, if_neg hl]

/-- Under its own descriptor the entry of an idle connection is erased twice. -/
theorem not_right_own (hfd : fd ∈ x.thread.conns) (hl : late conn)
    (ht : x.thread.timedOut now = late) (hown : conn.fd = fd) :
    ¬Right now late ((fd, conn) :: rest) x := by
  intro hr
  have hgone : fd ∉ x.thread.conns.erase conn.fd := by rw [hown]; simp
  have := hr.valid
  rw [cronLoop_visit hfd, ht, if_pos hl, if_neg hgone] at this
  cases this

theorem cronLoop_idle (hthere : x.thread.conns[fd]? = some conn) (hl : late conn)
    (ht : x.thread.timedOut now = late) (hown : conn.fd ≠ fd) : cronLoop now ((fd, conn) :: rest) x =
      cronLoop now rest (((x.visit (fd, conn)).timeOut conn).eraseAt fd) := by
  have hmem : fd ∈ x.thread.conns.erase conn.fd := by
    refine mem_of_getElem? (c := conn) ?_
    rw [getElem?_erase, if_neg (Ne.symm hown)]
    exact hthere
  rw [cronLoop_visit (mem_of_getElem? hthere), ht, if_pos hl, if_pos hmem]

variable (rest) in
/-- With nothing under its descriptor only the entry of the idle connection is erased. -/
theorem right_alone (hthere : x.thread.conns[fd]? = some conn) (hl : late conn)
    (ht : x.thread.timedOut now = late) (hown : conn.fd ≠ fd)
    (hnone : x.thread.conns[conn.fd]? = none) :
    (((x.visit (fd, conn)).timeOut conn).eraseAt fd).thread.conns = x.thread.conns.erase fd ∧
      (Right now late ((fd, conn) :: rest) x ↔
        Right now late rest (((x.visit (fd, conn)).timeOut conn).eraseAt fd)) := by
  have hsame : x.thread.conns.erase conn.fd = x.thread.conns := by
    refine Std.ExtTreeMap.ext_getElem? fun k => ?_
    rw [getElem?_erase]
    split_ifs with hk
    · rw [hk, hnone]
    · rfl
  have hconns : (((x.visit (fd, conn)).timeOut conn).eraseAt fd).thread.conns =
      x.thread.conns.erase fd := congrArg (fun m => Std.ExtTreeMap.erase m fd) hsame
  refine ⟨hconns, right_cons (cronLoop_idle hthere hl ht hown) rfl ?_ ?_ fun k => ?_⟩
  · simp [hl, Cron.eraseAt, Cron.timeOut, Cron.visit]
  · simp [hl, Cron.eraseAt, Cron.timeOut, Cron.visit]
  · rw [hconns, getElem?_erase]
    split_ifs with hk
    · rw [hk, hthere, Option.filter_some, if_neg (by simpa using hl)]
      rfl
    · rfl

/-- Another connection is under the descriptor of an idle one. It is erased: if it is not idle it
should stay, and if it is idle and ahead it is not visited. -/
theorem not_right_other (hthere : x.thread.conns[fd]? = some conn) (hl : late conn)
    (ht : x.thread.timedOut now = late) (hown : conn.fd ≠ fd) {c : Conn}
    (hc : x.thread.conns[conn.fd]? = some c) (hahead : late c → (conn.fd, c) ∈ rest) :
    ¬Right now late ((fd, conn) :: rest) x := by
  intro hr
  have hgone : conn.fd ∉ (((x.visit (fd, conn)).timeOut conn).eraseAt fd).thread.conns :=
    not_mem_erase (by simp [Cron.timeOut]) fd
  obtain ⟨⟨vs, hvs, hin⟩, hout⟩ := @cronLoop_shrinks now rest
    (((x.visit (fd, conn)).timeOut conn).eraseAt fd)
  rw [← cronLoop_idle hthere hl ht hown] at hvs hout
  by_cases hlc : late c
  · have hrest : vs = rest := by
      have := hvs.symm.trans hr.visited
      simpa [Cron.eraseAt, Cron.timeOut, Cron.visit] using this
    exact hgone (hin _ (hrest ▸ hahead hlc))
  · have := hr.conns conn.fd
    rw [hc, Option.filter_some, if_pos (by simpa using hlc)] at this
    exact hout _ hgone (mem_of_getElem? this)

end Turn

/-- **The rest of the loop** does what it should exactly if the idle connections ahead are apart. -/
theorem right_iff : ∀ (l : List (ℤ × Conn)) {x : Cron}, Ahead late l x.thread.conns →
    x.invalid = false → x.thread.timedOut now = late →
    (Right now late l x ↔ Clear late l x.thread.conns)
  | [], x, h, hv, _ => by
    refine iff_of_true ⟨hv, by simp [cronLoop], by simp [cronLoop], by simp [cronLoop],
      fun fd => ?_⟩ (by simp [Clear])
    rcases hc : x.thread.conns[fd]? with _ | c
    · simp [cronLoop, hc]
    · have hl : ¬late c := fun hl => List.not_mem_nil (h.idle fd c hc hl)
      rw [cronLoop, hc, Option.filter_some, if_pos (by simpa using hl)]
  | (fd, conn) :: rest, x, h, hv, ht => by
    have hthere : x.thread.conns[fd]? = some conn := h.there _ List.mem_cons_self
    have hfd := mem_of_getElem? hthere
    have hcons : Clear late ((fd, conn) :: rest) x.thread.conns ↔ (late conn → conn.fd ≠ fd ∧
        ∀ c, x.thread.conns[conn.fd]? = some c → late c ∧ conn.fd < fd) ∧
          Clear late rest x.thread.conns := List.forall_mem_cons
    rw [hcons]
    by_cases hl : late conn
    swap
    · have ih := right_iff rest (x := x.visit (fd, conn)) (h.tail hl) hv ht
      rw [right_stay hfd hl ht, ih]
      exact (and_iff_right fun h' => absurd h' hl).symm
    by_cases hown : conn.fd = fd
    · exact iff_of_false (not_right_own hfd hl ht hown) fun hc => (hc.1 hl).1 hown
    rcases hother : x.thread.conns[conn.fd]? with _ | c
    · obtain ⟨hconns, hright⟩ := right_alone rest hthere hl ht hown hother
      have ih := right_iff rest (x := ((x.visit (fd, conn)).timeOut conn).eraseAt fd)
        (by rw [hconns]; exact h.erase) hv ht
      rw [hright, ih, hconns, h.clear_erase hl]
      exact (and_iff_right fun _ => ⟨hown, by simp⟩).symm
    · have hahead : late c → (conn.fd, c) ∈ rest := fun hlc => by
        rcases List.mem_cons.mp (h.idle _ c hother hlc) with he | hmem
        · exact absurd (congrArg Prod.fst he) hown
        · exact hmem
      refine iff_of_false (not_right_other hthere hl ht hown hother hahead) fun hc => ?_
      obtain ⟨hlc, hlt⟩ := (hc.1 hl).2 c rfl
      exact h.not_lt hother hlc hlt

end Loop

/-! ### The cron task -/

section Task
variable (s : BackendThread) (now : ℤ)

theorem ahead_toList : Ahead (s.timedOut now) s.conns.toList s.conns := by
  refine ⟨fun p hp => Std.ExtTreeMap.mem_toList_iff_getElem?_eq_some.mp hp, ?_, fun fd c hc _ =>
    Std.ExtTreeMap.mem_toList_iff_getElem?_eq_some.mpr hc⟩
  exact Std.ExtTreeMap.ordered_keys_toList.imp fun h => compare_lt_iff_lt.mp h

/-- **The cron task does what it should exactly if the idle connections are apart.** -/
theorem cronTask_exact_iff : Exact s now (cronTask s now) ↔ Apart s now := by
  refine Iff.trans ?_ (right_iff s.conns.toList (x := { thread := s }) (ahead_toList s now) rfl rfl)
  constructor
  · rintro ⟨h1, h2, h3, h4, h5⟩
    exact ⟨h1, h2, h3, h4, h5⟩
  · rintro ⟨h1, h2, h3, h4, h5⟩
    exact ⟨h1, h2, h3, h4, h5⟩

variable {s} in
/-- With every connection under its own descriptor: no connection is idle. -/
theorem apart_iff (hkey : ∀ (fd : ℤ) (c : Conn), s.conns[fd]? = some c → c.fd = fd) :
    Apart s now ↔ ∀ (fd : ℤ) (c : Conn), s.conns[fd]? = some c → ¬s.timedOut now c := by
  constructor
  · intro h fd c hc hl
    have hmem : (fd, c) ∈ s.conns.toList := Std.ExtTreeMap.mem_toList_iff_getElem?_eq_some.mpr hc
    exact (h _ hmem hl).1 (hkey fd c hc)
  · intro h p hp hl
    exact absurd hl (h p.1 p.2 (Std.ExtTreeMap.mem_toList_iff_getElem?_eq_some.mp hp))

variable {s} in
/-- In a state of a run. -/
theorem apart_iff_of_owned (h : Messages.Owned s) : Apart s now ↔
    ∀ (fd : ℤ) (c : Conn), s.conns[fd]? = some c → ¬s.timedOut now c := apart_iff now h.key

variable {s now} in
theorem cronLoop_eq_find : ∀ (l : List (ℤ × Conn)) {x : Cron}, x.thread = s →
    (∀ p ∈ l, s.conns[p.1]? = some p.2 ∧ p.2.fd = p.1) → x.invalid = false →
    (match l.find? fun p => s.timedOut now p.2 with
      | none => (cronLoop now l x).thread = s ∧ (cronLoop now l x).invalid = false
      | some (_, c) => (cronLoop now l x).invalid = true ∧ (cronLoop now l x).thread =
          { s with
            openFds := s.openFds.erase c.fd
            conns := s.conns.erase c.fd
            connectingFds := s.connectingFds.erase c.fd })
  | [], _, hx, _, hv => ⟨hx, hv⟩
  | (fd, conn) :: rest, x, hx, hall, hv => by
    obtain ⟨hthere, hown⟩ := hall _ List.mem_cons_self
    have hfd : fd ∈ x.thread.conns := by rw [hx]; exact mem_of_getElem? hthere
    have hgone : fd ∉ x.thread.conns.erase conn.fd := by
      rw [show conn.fd = fd from hown]; simp
    rw [cronLoop_visit hfd, hx, List.find?_cons]
    by_cases hl : s.timedOut now conn
    · rw [if_pos hl, ← hx, if_neg hgone, hx, hl]
      subst hx
      exact ⟨rfl, rfl⟩
    · rw [if_neg hl, eq_false_of_ne_true hl]
      exact cronLoop_eq_find rest hx (fun p hp => hall p (List.mem_cons_of_mem _ hp)) hv

/-- **`doCronTask` is the loop**, for connections under their own descriptors. -/
theorem cronTask_eq (hkey : ∀ (fd : ℤ) (c : Conn), s.conns[fd]? = some c → c.fd = fd) :
    s.doCronTask now = { (cronTask s now).thread with
      halted := if (cronTask s now).invalid then some .doubleErase else s.halted } := by
  have h := @cronLoop_eq_find s now s.conns.toList { thread := s } rfl
    (fun p hp => by
      have hp' := Std.ExtTreeMap.mem_toList_iff_getElem?_eq_some.mp hp
      exact ⟨hp', hkey p.1 p.2 hp'⟩) rfl
  rcases hfind : s.conns.toList.find? fun p => s.timedOut now p.2 with _ | ⟨fd, c⟩ <;>
    rw [hfind] at h <;> rw [BackendThread.doCronTask, hfind, cronTask, h.1, h.2]
  · rfl
  · rfl

end Task

/-- One connection, idle for 61 seconds. -/
def idleThread : BackendThread where
  conns := (∅ : Std.ExtTreeMap ℤ Conn compare).insert 5 ⟨0, 5, []⟩

theorem not_exact_idle : ¬Exact idleThread 61 (cronTask idleThread 61) := by
  intro h
  have hinvalid : (cronTask idleThread 61).invalid = true := by decide +kernel
  exact absurd (h.valid.symm.trans hinvalid) (by decide)

end Pink.Backend.Idle
