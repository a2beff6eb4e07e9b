import Pink.Http.Conn

/-! # The order of the handler calls

A handler is promised a `HandleRequest`, the parts of the body, a `PrepareResponse`, and so on for
the next request, until a `HandleConnClosed` says that the connection is gone (`follow`). `ReadData`
keeps this order as long as no read finds the socket empty. A read that does, which only means that
the rest of the request has not arrived, is answered with `HandleConnClosed` too, though the call
returns `kReadHalf` and the connection goes on (`handlers_in_order_iff`). -/

namespace Pink.Http.Handlers

open Pink.Redis.Wire Pink.Lib.Runs Pink.Http.Request Pink.Http.Conn
open Pink.Server.Threads (ReadStatus)

/-- Where a handler is: between requests, in a request, or after the end. -/
inductive Phase
  | idle | body | closed
  deriving DecidableEq, Repr

/-- The call that may come in a phase, and the phase after it. -/
def Phase.next : Phase → Event → Option Phase
  | .idle, .handleRequest => some .body
  | .body, .handleBodyData _ => some .body
  | .body, .prepareResponse => some .idle
  | .idle, .handleConnClosed => some .closed
  | .body, .handleConnClosed => some .closed
  | _, _ => none

/-- The phase after a sequence of calls, if it is in order: requests, each with `HandleRequest`, then
any number of `HandleBodyData`, then `PrepareResponse`, the last of them possibly cut short, and at
most one `HandleConnClosed` after them. -/
def follow (p : Phase) (es : List Event) : Option Phase := es.foldlM Phase.next p

/-- **The protocol of the handlers**: the calls are in order, and `HandleConnClosed` is called only
by a `ReadData` that returns a status on which the connection is closed. -/
def Follows (c : HTTPConn) : Prop :=
  (follow .idle (c.calls.flatMap Prod.snd)).isSome ∧
    ∀ x ∈ c.calls, .handleConnClosed ∈ x.2 → x.1 = some .readClose ∨ x.1 = some .readError

instance (c : HTTPConn) : Decidable (Follows c) := by unfold Follows; infer_instance

theorem follow_append (p : Phase) (es es' : List Event) :
    follow p (es ++ es') = (follow p es).bind fun q => follow q es' := List.foldlM_append

theorem follow_emit {p q : Phase} {es : List Event} {e : Event} (h : follow p es = some q) :
    follow p (es ++ [e]) = q.next e := by
  rw [follow_append, h]
  simp [follow]

/-- Nothing comes after `HandleConnClosed`. -/
theorem closed_not_mem {p q : Phase} {es : List Event} (h : follow p es = some q)
    (hq : q ≠ .closed) : .handleConnClosed ∉ es := by
  induction es generalizing p with
  | nil => simp
  | cons e es ih =>
    have hcons : (p.next e).bind (fun p => follow p es) = some q := h
    obtain ⟨p', hp, hes⟩ := Option.bind_eq_some_iff.mp hcons
    rintro hmem
    rcases List.mem_cons.mp hmem with rfl | hmem
    · have hclosed : p' = .closed := by cases p <;> simp_all [Phase.next]
      subst hclosed
      cases es with
      | nil => exact hq (Option.some.inj hes).symm
      | cons e' es =>
        have : (Phase.closed.next e').bind (fun p => follow p es) = some q := hes
        cases e' <;> simp [Phase.next] at this
    · exact ih hes hmem

/-! ### A call of `ReadData` -/

/-- The phase that belongs to a state of the request. -/
def phaseOf : RequestStatus → Phase
  | .newRequest | .headerReceiving => .idle
  | .bodyReceiving | .bodyReceived => .body

theorem phaseOf_ne_closed (st : RequestStatus) : phaseOf st ≠ .closed := by
  cases st <;> simp [phaseOf]

/-- The calls made so far are in order and fit the state of the request. -/
def InStep (p : Phase) (x : Reading) : Prop := follow p x.events = some (phaseOf x.request.reqStatus)

/-- How a call may end. -/
inductive Ended (p : Phase) (x : Reading) (st : Option ReadStatus) : Prop
  /-- The connection goes on. -/
  | open (hst : goesOn st) (h : InStep p x)
  /-- The connection is closed. -/
  | closed (hst : st = some .readClose ∨ st = some .readError)
      (h : follow p x.events = some .closed)
  /-- The process is terminated. -/
  | terminated (hst : st = none) (q : Phase) (hq : q ≠ .closed) (h : follow p x.events = some q)

/-- What a turn of the loop leads to. -/
abbrev Turned (p : Phase) : Turn → Prop := Turn.Holds (InStep p) (Ended p)

variable {stringToLower : Bytes → Bytes}

theorem follow_closed {p : Phase} {x : Reading} (h : InStep p x) :
    follow p (x.events ++ [.handleConnClosed]) = some .closed := by
  rw [follow_emit h]
  cases x.request.reqStatus <;> rfl

theorem headerParsed_turned {p : Phase} {x : Reading} {needReply : Bool} {headerLen : ℕ}
    (h : InStep p x) (hx : x.request.reqStatus = .headerReceiving) :
    Turned p (headerParsed x needReply headerLen) := by
  have hreq : follow p (x.events ++ [.handleRequest]) = some .body := by
    rw [follow_emit h, hx]
    rfl
  unfold headerParsed
  dsimp only [Reading.emit]
  split_ifs
  · exact hreq
  · exact .open rfl hreq
  · show follow p (x.events ++ [.handleRequest] ++ [_]) = some .body
    rw [follow_emit hreq]
    rfl
  · exact hreq

theorem headerTurn_turned {p : Phase} {x : Reading} {needReply : Bool} (h : InStep p x)
    (hx : x.request.reqStatus = .headerReceiving) :
    Turned p (headerTurn stringToLower x needReply) := by
  have hr : ∀ r, SameBuffer x.request r → InStep p (x.scanned r) := by
    intro r hsame
    show follow p x.events = some (phaseOf r.reqStatus)
    rw [hsame.2]
    exact h
  refine headerTurn_rule (fun r hsame => ?_) (fun r hsame => ?_) (fun r hsame _ _ => hr r hsame)
    fun r len hsame _ => ?_
  · exact .terminated rfl _ (phaseOf_ne_closed _) (hr r hsame)
  · exact .closed (.inr rfl) (follow_closed (hr r hsame))
  · exact headerParsed_turned (hr r hsame) (hsame.2.trans hx)

theorem bodyTurn_turned {p : Phase} {x : Reading} (h : InStep p x)
    (hx : x.request.reqStatus = .bodyReceiving) : Turned p (bodyTurn x) := by
  have hbody : follow p x.events = some .body := by rw [h, hx]; rfl
  have hdata : follow p (x.events ++ [.handleBodyData x.request.rbuf]) = some .body := by
    rw [follow_emit hbody]
    rfl
  unfold bodyTurn
  dsimp only [Reading.emit]
  split_ifs
  · exact hdata
  · exact hbody
  · show follow p (x.events ++ [_]) = some (phaseOf x.request.reqStatus)
    rw [hx]
    exact hdata
  · exact h

theorem receivedTurn_turned {p : Phase} {x : Reading} {prepare : List Setter} (h : InStep p x)
    (hx : x.request.reqStatus = .bodyReceived) : Turned p (receivedTurn x prepare) := by
  have hprep : follow p (x.events ++ [.prepareResponse]) = some .idle := by
    rw [follow_emit h, hx]
    rfl
  unfold receivedTurn
  dsimp only [Reading.emit]
  cases prepareResponse x.response prepare with
  | none => exact .terminated rfl _ (by simp) hprep
  | some resp => exact .open rfl hprep

/-- A read, unless it finds the socket empty. -/
theorem readThen_turned {p : Phase} {security : Bool} {turn : Reading → Turn} {x : Reading}
    {r : Recv} {t : Turn} (hr : r ≠ .again) (h : InStep p x)
    (hturn : ∀ x', InStep p x' → x'.request.reqStatus = x.request.reqStatus → Turned p (turn x'))
    (ht : readThen security turn x r = some t) : Turned p t := by
  unfold readThen at ht
  cases hd : doRead security x r with
  | none => simp [hd] at ht
  | some y =>
    obtain ⟨x', st⟩ := y
    rw [hd] at ht
    rcases doRead_cases hd with ⟨rfl, -, -⟩ | ⟨-, rfl, rfl⟩ | ⟨-, rfl, hsame⟩
    · exact absurd rfl hr
    · obtain rfl := Option.some.inj ht
      exact .closed (.inl rfl) (follow_closed h)
    · obtain rfl := Option.some.inj ht
      refine hturn x' ?_ hsame.status
      show follow p x'.events = some (phaseOf x'.request.reqStatus)
      rw [hsame.events, hsame.status]
      exact h

/-- **A call keeps the order**, if no read finds the socket empty. -/
theorem readLoop_ended {p : Phase} {security : Bool} {e : Env} {rs : List Recv} {x x' : Reading}
    {st : Option ReadStatus} (hrs : .again ∉ rs) (h : InStep p x)
    (hl : readLoop stringToLower security e rs x = some (x', st)) : Ended p x' st := by
  refine readLoop_rule (P := InStep p) (A := (· ≠ .again)) ?_ ?_ ?_ ?_ h hl
  · intro x r t hr hx hst ht
    exact readThen_turned hr hx (fun y hy hsame => headerTurn_turned hy (hsame.trans hst)) ht
  · intro x r t hr hx hst ht
    exact readThen_turned hr hx (fun y hy hsame => bodyTurn_turned hy (hsame.trans hst)) ht
  · intro x hx hst
    exact receivedTurn_turned hx hst
  · rintro r hr rfl
    exact hrs hr

/-- **A read that finds the socket empty** ends the call with `HandleConnClosed` and `kReadHalf`. -/
theorem readLoop_again {security : Bool} {e : Env} {rs : List Recv} {x x' : Reading}
    {st : Option ReadStatus} (hrs : .again ∈ rs)
    (hl : readLoop stringToLower security e rs x = some (x', st)) :
    .handleConnClosed ∈ x'.events ∧ st = some .readHalf := by
  induction rs generalizing x with
  | nil => simp at hrs
  | cons r rs ih =>
    unfold readLoop at hl
    dsimp only at hl
    by_cases hr : r = .again
    · subst hr
      have hret : ∀ turn, readThen security turn x .again =
          some (.ret (x.emit .handleConnClosed) (some .readHalf)) := fun turn => rfl
      cases hx : x.request.reqStatus <;> rw [hx] at hl <;>
        simp only [hret, reduceCtorEq, Option.ite_none_right_eq_some, Option.some.injEq,
          Prod.mk.injEq] at hl
      all_goals
        obtain ⟨-, rfl, rfl⟩ := hl
        exact ⟨by simp [Reading.emit], rfl⟩
    · have hrs' : .again ∈ rs := by
        rcases List.mem_cons.mp hrs with h | h
        · exact absurd h.symm hr
        · exact h
      have hne : rs ≠ [] := List.ne_nil_of_mem hrs'
      split at hl
      · simp at hl
      · simp [hne] at hl
      · exact ih hrs' hl

/-! ### The life of a connection -/

/-- The calls of a connection are in order, and fit the state of the request as long as it is
alive. -/
structure Inv (c : HTTPConn) : Prop where
  order : ∃ q, follow .idle (c.calls.flatMap Prod.snd) = some q ∧
    (c.alive → q = phaseOf c.request.reqStatus)
  closing : ∀ x ∈ c.calls, .handleConnClosed ∈ x.2 → x.1 = some .readClose ∨ x.1 = some .readError

/-- `ReadData` as a whole. -/
theorem readData_ended {security : Bool} {c : HTTPConn} {e : Env} {x : Reading}
    {st : Option ReadStatus} (he : .again ∉ e.reads)
    (h : readData stringToLower security c e = some (x, st)) :
    Ended (phaseOf c.request.reqStatus) x st := by
  unfold readData at h
  by_cases hnew : c.request.reqStatus = .newRequest
  · rw [if_pos hnew] at h
    rw [hnew]
    dsimp only at h
    split_ifs at h with hfin hnil
    · refine readLoop_ended he ?_ h
      rfl
    · obtain ⟨rfl, rfl⟩ := Prod.mk.inj (Option.some.inj h)
      exact .open rfl (by show some Phase.idle = some (phaseOf c.request.reqStatus); rw [hnew]; rfl)
  · rw [if_neg hnew] at h
    refine readLoop_ended he ?_ h
    rfl

/-- What a call of `GetRequest` takes over from `ReadData`. -/
theorem getRequest_calls {security : Bool} {c c' : HTTPConn} {e : Env}
    (h : getRequest stringToLower security c e = some c') :
    ∃ x st, readData stringToLower security c e = some (x, st) ∧
      c'.calls = c.calls ++ [(st, x.events)] ∧ c'.request = x.request ∧
      c'.overflow = x.overflow := by
  obtain ⟨⟨x, st⟩, hread, hc'⟩ := Option.map_eq_some_iff.mp h
  refine ⟨x, st, hread, ?_⟩
  rw [← hc']
  dsimp only
  split_ifs <;> exact ⟨rfl, rfl, rfl⟩

/-- A call of `GetRequest` in which no read finds the socket empty. -/
theorem getRequest_inv {security : Bool} {c c' : HTTPConn} {e : Env} (he : .again ∉ e.reads)
    (halive : c.alive) (hinv : Inv c) (h : getRequest stringToLower security c e = some c') :
    Inv c' := by
  obtain ⟨x, st, hread, hcalls, hreq, -⟩ := getRequest_calls h
  have hended := readData_ended he hread
  obtain ⟨q, hq, hphase⟩ := hinv.order
  rw [hphase halive] at hq
  have hfollow : follow .idle (c'.calls.flatMap Prod.snd) =
      follow (phaseOf c.request.reqStatus) x.events := by
    rw [hcalls, List.flatMap_append, follow_append, hq]
    simp
  have halive' : c'.alive → goesOn st := by
    intro ha
    have hmem : (st, x.events) ∈ c'.calls := by simp [hcalls]
    exact HTTPConn.goesOn_of_alive ha hmem
  constructor
  · rw [hfollow, hreq]
    cases hended with
    | «open» hst h => exact ⟨_, h, fun _ => rfl⟩
    | closed hst h =>
      refine ⟨_, h, fun ha => ?_⟩
      have := halive' ha
      rcases hst with rfl | rfl <;> simp [goesOn] at this
    | terminated hst q hq' h =>
      refine ⟨q, h, fun ha => ?_⟩
      have := halive' ha
      rw [hst] at this
      simp [goesOn] at this
  · intro y hy hmem
    rw [hcalls] at hy
    rcases List.mem_append.mp hy with hy | hy
    · exact hinv.closing y hy hmem
    · obtain rfl := List.mem_singleton.mp hy
      cases hended with
      | «open» hst h => exact absurd hmem (closed_not_mem h (phaseOf_ne_closed _))
      | closed hst h => exact hst
      | terminated hst q hq' h => exact absurd hmem (closed_not_mem h hq')

theorem sendReply_calls {c c' : HTTPConn} {o : Out} (h : sendReply c o = some c') :
    c'.calls = c.calls ∧ c'.request = c.request := by
  obtain ⟨⟨x, ok⟩, -, rfl⟩ := Option.map_eq_some_iff.mp h
  exact ⟨rfl, rfl⟩

/-- No read of the call finds the socket empty. -/
def Busy : Op → Prop
  | .getRequest e => .again ∉ e.reads
  | .sendReply _ => True

instance : DecidablePred Busy := fun op => by cases op <;> unfold Busy <;> infer_instance

theorem step_inv {security : Bool} {c : HTTPConn} {op : Op} (hop : Busy op) (hinv : Inv c) :
    Inv (step stringToLower security c op) := by
  unfold step
  cases hs : stepOption stringToLower security c op with
  | none => exact hinv
  | some c' =>
    cases op with
    | getRequest e =>
      obtain ⟨halive, hget⟩ := stepOption_getRequest.mp hs
      exact getRequest_inv hop halive hinv hget
    | sendReply o =>
      obtain ⟨⟨halive, -⟩, hsend⟩ := stepOption_sendReply.mp hs
      obtain ⟨hcalls, hreq⟩ := sendReply_calls hsend
      obtain ⟨q, hq, hphase⟩ := hinv.order
      refine ⟨⟨q, by rw [Option.getD_some, hcalls]; exact hq, fun ha => ?_⟩, ?_⟩
      · rw [Option.getD_some, hreq]
        exact hphase halive
      · rw [Option.getD_some, hcalls]
        exact hinv.closing

/-- A call that went against the protocol. -/
def Astray (c : HTTPConn) : Prop :=
  ∃ x ∈ c.calls, .handleConnClosed ∈ x.2 ∧ x.1 = some .readHalf

theorem Astray.not_follows {c : HTTPConn} (h : Astray c) : ¬Follows c := by
  obtain ⟨x, hx, hmem, hst⟩ := h
  rintro ⟨-, hclosing⟩
  rcases hclosing x hx hmem with h | h <;> simp [hst] at h

/-- Calls stay recorded. -/
theorem calls_subset {security : Bool} (c : HTTPConn) (op : Op) :
    c.calls ⊆ (step stringToLower security c op).calls := by
  unfold step
  cases hs : stepOption stringToLower security c op with
  | none => exact List.Subset.refl _
  | some c' =>
    cases op with
    | getRequest e =>
      obtain ⟨x, st, -, hcalls, -⟩ := getRequest_calls (stepOption_getRequest.mp hs).2
      rw [Option.getD_some, hcalls]
      exact List.subset_append_left _ _
    | sendReply o =>
      obtain ⟨hcalls, -⟩ := sendReply_calls (stepOption_sendReply.mp hs).2
      rw [Option.getD_some, hcalls]
      exact List.Subset.refl _

theorem run_follows {security : Bool} {ops : List Op} (hops : ∀ op ∈ ops, Busy op) :
    Follows (run (step stringToLower security) {} ops) := by
  have hstep : ∀ c op, Inv c → Busy op → Inv (step stringToLower security c op) :=
    fun c op hc hop => step_inv hop hc
  have h : Inv (run (step stringToLower security) {} ops) := by
    refine run_inv_of_forall Inv hstep ?_ hops
    exact ⟨⟨.idle, rfl, fun _ => rfl⟩, by simp⟩
  obtain ⟨q, hq, -⟩ := h.order
  exact ⟨by rw [hq]; rfl, h.closing⟩

variable (stringToLower)

/-- An event that can happen in its state. -/
def Happens (security : Bool) (c : HTTPConn) (op : Op) : Prop :=
  (stepOption stringToLower security c op).isSome

instance (security : Bool) (c : HTTPConn) (op : Op) :
    Decidable (Happens stringToLower security c op) :=
  by unfold Happens; infer_instance

variable {stringToLower}

theorem step_astray {security : Bool} {c : HTTPConn} {op : Op}
    (hs : Happens stringToLower security c op) (hop : ¬Busy op) :
    Astray (step stringToLower security c op) := by
  cases op with
  | sendReply o => exact absurd trivial hop
  | getRequest e =>
    obtain ⟨c', hc'⟩ := Option.isSome_iff_exists.mp hs
    rw [step, hc', Option.getD_some]
    obtain ⟨x, st, hread, hcalls, -⟩ := getRequest_calls (stepOption_getRequest.mp hc').2
    have hagain : .again ∈ e.reads := not_not.mp hop
    have hx : .handleConnClosed ∈ x.events ∧ st = some .readHalf := by
      unfold readData at hread
      dsimp only at hread
      split_ifs at hread with hnew hfin hnil
      · exact readLoop_again hagain hread
      · simp [hnil] at hagain
      · exact readLoop_again hagain hread
    refine ⟨(st, x.events), ?_, hx⟩
    rw [hcalls]
    exact List.mem_append_right _ List.mem_cons_self

theorem run_astray {security : Bool} {ops : List Op} {c : HTTPConn}
    (hg : Guarded (step stringToLower security) (Happens stringToLower security) c ops)
    (h : Astray c ∨ ∃ op ∈ ops, ¬Busy op) : Astray (run (step stringToLower security) c ops) := by
  induction ops generalizing c with
  | nil => exact h.resolve_right (by simp)
  | cons op ops ih =>
    refine ih hg.2 ?_
    rcases h with ⟨x, hx, hbad⟩ | ⟨op', hmem, hbusy⟩
    · exact .inl ⟨x, calls_subset c op hx, hbad⟩
    · rcases List.mem_cons.mp hmem with rfl | hmem
      · exact .inl (step_astray hg.1 hbusy)
      · exact .inr ⟨op', hmem, hbusy⟩

/-- **The handlers are called in order exactly when no read finds the socket empty.** -/
theorem handlers_in_order_iff (stringToLower : Bytes → Bytes) (security : Bool) (ops : List Op)
    (hops : Guarded (step stringToLower security) (Happens stringToLower security) {} ops) :
    Follows (run (step stringToLower security) {} ops) ↔
      ∀ e, Op.getRequest e ∈ ops → Recv.again ∉ e.reads := by
  constructor
  · intro h e he hagain
    refine (run_astray hops (.inr ⟨.getRequest e, he, ?_⟩)).not_follows h
    exact fun hbusy => hbusy hagain
  · intro h
    refine run_follows fun op hop => ?_
    cases op with
    | getRequest e => exact h e hop
    | sendReply o => trivial

/-- `slash::StringToLower` on ASCII letters. -/
def asciiLower (s : Bytes) : Bytes := s.map fun b => if 65 ≤ b ∧ b ≤ 90 then b + 32 else b

/-- A request whose body arrives in one piece with its header. -/
def wholeRequest : Bytes := bytes "PUT /a HTTP/1.1\r\nContent-Length: 2\r\n\r\nhi"

theorem handlers_in_order_whole :
    Follows (run (step asciiLower false) {} [.getRequest ⟨[.data wholeRequest], false, []⟩]) ↔
      ∀ e, Op.getRequest e ∈ [Op.getRequest ⟨[.data wholeRequest], false, []⟩] →
        Recv.again ∉ e.reads :=
  handlers_in_order_iff asciiLower false _ (by decide +kernel)

/-- The same request in two pieces: the handler is told that the connection is gone between them. -/
theorem handlers_out_of_order :
    ¬∀ ops : List Op, Guarded (step asciiLower false) (Happens asciiLower false) {} ops →
      Follows (run (step asciiLower false) {} ops) := by
  intro h
  exact absurd (h [.getRequest ⟨[.data (wholeRequest.take 39), .again], false, []⟩,
    .getRequest ⟨[.data (wholeRequest.drop 39)], false, []⟩] (by decide +kernel)) (by decide +kernel)

end Pink.Http.Handlers
