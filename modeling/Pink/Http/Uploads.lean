import Pink.Http.Delivery

/-! # Which requests are accepted, and what their handlers are given

The two results about a well-formed request with a body. It is accepted exactly if the reads are
small enough (`accepted_iff`): the limit for the header is compared with all that is in `rbuf_`, so a
client that sends a large body right behind its header is refused when the two come together. And if
it is accepted, the handler is given the body as it was sent, in however many parts, and is asked for
the response once, behind the last of them (`body_delivered`). -/

namespace Pink.Http.Uploads

open Pink.Redis.Wire Pink.Http.Request Pink.Http.Conn Pink.Http.Heads Pink.Http.Delivery
open Pink.Lib.Runs
open Pink.Http.Handlers (Happens asciiLower)
open Pink.Server.Threads (ReadStatus)

variable {stringToLower : Bytes → Bytes}

/-! ### The end of the buffer -/

/-- The terminating zero of `ParseHeader` stands behind `rbuf_` only in a call that fails. -/
theorem headerTurn_overflow (x : Reading) (needReply : Bool) :
    (headerTurn stringToLower x needReply).Holds (fun x' => x'.overflow = x.overflow)
      fun x' st => goesOn st = true → x'.overflow = x.overflow := by
  have hfits : ∀ r, SameBuffer x.request r → r.rbuf.length ≤ kHTTPMaxHeader →
      (x.scanned r).overflow = x.overflow := by
    intro r hsame hsmall
    rw [hsame.1] at hsmall
    have hin : ¬kHTTPMaxMessage ≤ x.request.rbuf.length := by
      unfold kHTTPMaxHeader at hsmall
      unfold kHTTPMaxMessage
      omega
    show (x.overflow || decide (kHTTPMaxMessage ≤ x.request.rbuf.length)) = x.overflow
    rw [decide_eq_false hin, Bool.or_false]
  refine headerTurn_rule (fun r _ hgo => absurd hgo (by decide))
    (fun r _ hgo => absurd hgo (by decide)) (fun r hsame hsmall _ => hfits r hsame hsmall)
    fun r len hsame hsmall => ?_
  have hover := hfits r hsame hsmall
  unfold headerParsed
  dsimp only
  split_ifs
  · exact hover
  · exact fun _ => hover
  · exact hover
  · exact hover

/-- Without SSL a read does not go behind the end of `rbuf_`, and a call that returns a status to go
on with has not put a zero there. -/
theorem readData_overflow {c : HTTPConn} {e : Env} {x : Reading} {st : Option ReadStatus}
    (h : readData stringToLower false c e = some (x, st)) (hst : goesOn st = true) :
    x.overflow = c.overflow := by
  have hread : ∀ (turn : Reading → Turn) (x : Reading) (r : Recv) (t : Turn),
      x.overflow = c.overflow → readThen false turn x r = some t →
      (∀ x', x'.overflow = c.overflow → (turn x').Holds (fun x => x.overflow = c.overflow)
        fun x st => goesOn st = true → x.overflow = c.overflow) →
      t.Holds (fun x => x.overflow = c.overflow)
        fun x st => goesOn st = true → x.overflow = c.overflow := by
    intro turn x r t hx ht hturn
    rcases readThen_cases ht with ⟨-, st, -, rfl⟩ | ⟨bs, x₁, -, hle, hne, hover, -, -, rfl⟩
    · exact fun _ => hx
    · refine hturn x₁ (hover.trans ?_)
      have hpos := List.length_pos_iff.mpr hne
      have hin : ¬kHTTPMaxMessage < x.request.rbuf.length + bs.length := by
        simp only [readCount, Bool.false_eq_true, if_false] at hle
        omega
      rw [decide_eq_false hin, Bool.or_false, hx]
  have hloop : ∀ x₀ : Reading, x₀.overflow = c.overflow →
      readLoop stringToLower false e e.reads x₀ = some (x, st) → x.overflow = c.overflow := by
    intro x₀ hx₀ hl
    refine readLoop_rule (A := fun _ => True) (P := fun x => x.overflow = c.overflow)
      (Q := fun x st => goesOn st = true → x.overflow = c.overflow) ?_ ?_ ?_ (fun _ _ => trivial)
      hx₀ hl hst
    · intro x r t _ hx _ ht
      refine hread _ x r t hx ht fun x' hx' => ?_
      refine (headerTurn_overflow x' e.needReply).imp (fun _ h => h.trans hx') ?_
      exact fun _ _ h hgo => (h hgo).trans hx'
    · intro x r t _ hx _ ht
      refine hread _ x r t hx ht fun x' hx' => ?_
      unfold bodyTurn
      dsimp only
      split_ifs <;> exact hx'
    · intro x hx _
      unfold receivedTurn
      dsimp only
      split
      · exact fun _ => hx
      · exact fun _ => hx
  unfold readData at h
  dsimp only at h
  split_ifs at h
  · exact hloop _ rfl h
  · obtain ⟨rfl, -⟩ := Prod.mk.inj (Option.some.inj h)
    rfl
  · exact hloop _ rfl h

theorem run_overflow {c : HTTPConn} {ops : List Op}
    (hops : Guarded (step stringToLower false) (Happens stringToLower false) c ops)
    (hgo : ∀ call ∈ (run (step stringToLower false) c ops).calls, goesOn call.1 = true) :
    (run (step stringToLower false) c ops).overflow = c.overflow := by
  induction ops using List.reverseRecOn with
  | nil => rfl
  | append_singleton ops op ih =>
    obtain ⟨hops', hop, -⟩ := guarded_append.mp hops
    rw [run_append] at hgo ⊢
    have hbefore := ih hops' fun call hcall => hgo call (Handlers.calls_subset _ op hcall)
    obtain ⟨c', hc'⟩ := Option.isSome_iff_exists.mp hop
    have hrun : run (step stringToLower false) (run (step stringToLower false) c ops) [op] = c' := by
      rw [run, List.foldl_cons, List.foldl_nil, step, hc', Option.getD_some]
    rw [hrun] at hgo ⊢
    refine Eq.trans ?_ hbefore
    cases op with
    | sendReply o =>
      obtain ⟨⟨y, ok⟩, -, rfl⟩ := Option.map_eq_some_iff.mp (stepOption_sendReply.mp hc').2
      rfl
    | getRequest e =>
      obtain ⟨x, st, hread, hcalls, -, hover⟩ :=
        Handlers.getRequest_calls (stepOption_getRequest.mp hc').2
      rw [hover]
      refine readData_overflow hread (hgo (st, x.events) ?_)
      rw [hcalls]
      exact List.mem_append_right _ List.mem_cons_self

/-- If the last call of a run returns a status to go on with, all calls do. -/
theorem goesOn_of_last {security : Bool} {c : HTTPConn} {ops : List Op} {e : Env}
    {calls : List (Option ReadStatus × List Event)} {evs : List Event}
    (hlast : Happens stringToLower security (run (step stringToLower security) c ops)
      (.getRequest e))
    (hle : c.calls.length ≤ (run (step stringToLower security) c ops).calls.length)
    (hsince : since c (run (step stringToLower security) c (ops ++ [Op.getRequest e])) =
      calls ++ [(some .readAll, evs)]) :
    ∀ call ∈ (run (step stringToLower security) c (ops ++ [Op.getRequest e])).calls,
      goesOn call.1 = true := by
  obtain ⟨c', hc'⟩ := Option.isSome_iff_exists.mp hlast
  have hrun : run (step stringToLower security) c (ops ++ [Op.getRequest e]) = c' := by
    rw [run_append, run, List.foldl_cons, List.foldl_nil, step, hc', Option.getD_some]
  obtain ⟨halive, hget⟩ := stepOption_getRequest.mp hc'
  obtain ⟨x, st, -, hcalls, -⟩ := Handlers.getRequest_calls hget
  rw [hrun, since_append hle hcalls] at hsince
  obtain ⟨-, heq⟩ := List.append_inj' hsince rfl
  have hst : st = some .readAll := congrArg Prod.fst (List.cons.inj heq).1
  intro call hcall
  rw [hrun, hcalls, List.mem_append, List.mem_singleton] at hcall
  rcases hcall with hcall | rfl
  · exact HTTPConn.goesOn_of_alive halive hcall
  · rw [hst]
    rfl

/-! ### Acceptance and delivery -/

/-- **A request is accepted exactly if no read that begins before the end of its header ends behind
the first `kHTTPMaxHeader` bytes**: the test for the size of the header counts what has come of the
body with it. -/
theorem accepted_iff (stringToLower : Bytes → Bytes) (security : Bool) (h : Head stringToLower)
    (body : Bytes) (hbody : body.length = h.contentLength) (c : HTTPConn)
    (hnew : c.request.reqStatus = .newRequest) (ops : List Op)
    (hops : Guarded (step stringToLower security) (Unanswered stringToLower security c) c ops)
    (hinput : (input ops).flatten <+: h.render ++ body) :
    (∀ call ∈ since c (run (step stringToLower security) c ops), call.1 ≠ some .readError) ↔
      Small h.render.length 0 (input ops) := by
  obtain ⟨-, hstand⟩ := run_stand hbody hnew hops hinput
  cases hstand with
  | refused hsmall herror hopen => exact ⟨fun hok => absurd hok herror, fun hs => absurd hs hsmall⟩
  | waits hsmall hok hopen hphase => exact ⟨fun _ => hsmall, fun _ => hok⟩
  | answered calls evs st e hlast hsmall hok hsince hst hopen hnew hwhole =>
    exact ⟨fun _ => hsmall, fun _ => hok⟩

/-- A request with a body of two bytes, for which the client waits for the interim reply. -/
def uploadHead : Head asciiLower where
  method := bytes "PUT"
  url := bytes "/a"
  version := bytes "HTTP/1.1"
  fields := [(bytes "Content-Length", bytes "2"), (bytes "Expect", bytes "100-continue")]
  method_free := sampleHead.method_free
  url_free := by decide +kernel
  version_free := sampleHead.version_free
  name_free := by decide +kernel
  value_free := by decide +kernel
  length_ok := by decide +kernel

/-- Its head comes in two calls, and the interim reply is sent. -/
def uploadRun : List Op :=
  [.getRequest ⟨[.data (uploadHead.render.take 30), .again], false, []⟩,
    .getRequest ⟨[.data (uploadHead.render.drop 30)], false, []⟩,
    .sendReply ⟨.wrote 100, none, .again⟩]

theorem accepted_iff_upload :
    (∀ call ∈ since {} (run (step asciiLower false) {} uploadRun), call.1 ≠ some .readError) ↔
      Small uploadHead.render.length 0 (input uploadRun) :=
  accepted_iff asciiLower false uploadHead (bytes "hi") (by decide +kernel) {} rfl uploadRun
    (by decide +kernel) (by decide +kernel)

/-- A request that comes in one read and is longer than `kHTTPMaxHeader`. -/
theorem readData_big {h : Head stringToLower} {body : Bytes} {e : Env}
    (he : e.reads = [.data (h.render ++ body)]) (hbig : kHTTPMaxHeader < (h.render ++ body).length)
    (hfits : (h.render ++ body).length ≤ kHTTPMaxMessage) :
    ∃ x, x.events = [.handleConnClosed] ∧
      readData stringToLower false {} e = some (x, some .readError) := by
  have hne : ¬((h.render ++ body) = [] ∨ readCount false { reqStatus := .headerReceiving } <
      (h.render ++ body).length) := by
    rintro (hnil | hlt)
    · rw [hnil] at hbig
      simp at hbig
    · exact absurd hfits (not_le.mpr hlt)
  obtain ⟨x, -, hev, hturn⟩ := headerTurn_whole (h := h) (b := body)
    (x := { request := { reqStatus := .headerReceiving, rbuf := h.render ++ body }
            response := ({} : HTTPResponse).reset
            overflow := false ||
              decide (kHTTPMaxMessage < ([] : Bytes).length + (h.render ++ body).length) })
    e.needReply rfl
  rw [if_pos hbig] at hturn
  refine ⟨x.emit .handleConnClosed, by rw [Reading.emit, hev]; rfl, ?_⟩
  have hthen : readThen false (fun x => headerTurn stringToLower x e.needReply)
      { request := { reqStatus := .headerReceiving }, response := ({} : HTTPResponse).reset }
      (.data (h.render ++ body)) =
        some (.ret (x.emit .handleConnClosed) (some .readError)) := by
    rw [readThen]
    dsimp only [doRead]
    rw [if_neg hne, ← hturn]
    rfl
  unfold readData
  dsimp only
  rw [if_pos rfl, if_pos rfl, he]
  exact readLoop_header_ret rfl hthen

/-- A request with a body of `2 ^ 20` bytes. -/
def bigHead : Head asciiLower where
  method := bytes "PUT"
  url := bytes "/a"
  version := bytes "HTTP/1.1"
  fields := [(bytes "Content-Length", bytes "1048576")]
  method_free := sampleHead.method_free
  url_free := uploadHead.url_free
  version_free := sampleHead.version_free
  name_free := by decide +kernel
  value_free := by decide +kernel
  length_ok := by decide +kernel

def bigBody : Bytes := List.replicate 1048576 0

/-- All of it comes in one read. -/
def bigRead : Env := ⟨[.data (bigHead.render ++ bigBody)], false, []⟩

theorem large_body_refused :
    bigHead.render.length ≤ kHTTPMaxHeader ∧ bigBody.length = bigHead.contentLength ∧
      Guarded (step asciiLower false) (Unanswered asciiLower false {}) {} [.getRequest bigRead] ∧
      (input [.getRequest bigRead]).flatten = bigHead.render ++ bigBody ∧
      ¬∀ call ∈ since {} (run (step asciiLower false) {} [.getRequest bigRead]),
        call.1 ≠ some .readError := by
  have hbody : bigBody.length = 1048576 := List.length_replicate
  have hhead : bigHead.render.length = 44 := by decide +kernel
  have hlen : (bigHead.render ++ bigBody).length = 1048620 := by
    rw [List.length_append, hbody, hhead]
  obtain ⟨x, hev, hread⟩ := readData_big (e := bigRead) rfl (by rw [hlen]; decide)
    (by rw [hlen]; decide)
  have hget : ∃ c', getRequest asciiLower false {} bigRead = some c' := by
    rw [getRequest, hread]
    exact ⟨_, rfl⟩
  obtain ⟨c', hc'⟩ := hget
  have hstep : stepOption asciiLower false {} (.getRequest bigRead) = some c' := by
    rw [stepOption, if_pos (by decide), hc']
  obtain ⟨x', st, hread', hcalls, -⟩ := Handlers.getRequest_calls hc'
  have hst : st = some .readError := congrArg Prod.snd (Option.some.inj (hread'.symm.trans hread))
  refine ⟨by rw [hhead]; decide, by rw [hbody]; decide +kernel, ⟨⟨?_, by decide⟩, trivial⟩, ?_, ?_⟩
  · rw [Happens, hstep]
    rfl
  · simp [input, bigRead, pieces, piece]
  · intro hok
    refine hok (st, x'.events) ?_ hst
    rw [run, List.foldl_cons, List.foldl_nil, step, hstep, Option.getD_some, since, hcalls]
    exact List.mem_cons_self

section Delivery

variable {h : Head stringToLower} {body : Bytes} {security : Bool} {c : HTTPConn}

/-- As long as something is missing, a request that `HandleRequest` lets go on is not answered. -/
theorem open_of_part (hbody : body.length = h.contentLength)
    (hnew : c.request.reqStatus = .newRequest) {ops : List Op}
    (hfalse : ∀ e, Op.getRequest e ∈ ops → e.needReply = false)
    (hops : Guarded (step stringToLower security) (Unanswered stringToLower security c) c ops)
    (hinput : (input ops).flatten <+: h.render ++ body)
    (hpart : (input ops).flatten.length < (h.render ++ body).length) :
    Event.prepareResponse ∉ eventsSince c (run (step stringToLower security) c ops) := by
  obtain ⟨-, hstand⟩ := run_stand hbody hnew hops hinput
  cases hstand with
  | refused hsmall herror hopen => exact hopen
  | waits hsmall hok hopen hphase => exact hopen
  | answered calls evs st e hlast hsmall hok hsince hst hopen hnew hwhole =>
    rw [(hwhole (hfalse e (List.mem_of_getLast? hlast))).1] at hpart
    exact absurd hpart (lt_irrefl _)

theorem unanswered_of_part (hbody : body.length = h.contentLength)
    (hnew : c.request.reqStatus = .newRequest) {ops : List Op}
    (hfalse : ∀ e, Op.getRequest e ∈ ops → e.needReply = false)
    (hops : Guarded (step stringToLower security) (Happens stringToLower security) c ops)
    (hinput : (input ops).flatten <+: h.render ++ body)
    (hpart : (input ops).flatten.length < (h.render ++ body).length) :
    Guarded (step stringToLower security) (Unanswered stringToLower security c) c ops := by
  induction ops using List.reverseRecOn with
  | nil => trivial
  | append_singleton ops op ih =>
    obtain ⟨hops', hop, -⟩ := guarded_append.mp hops
    rw [input_append, List.flatten_append] at hinput hpart
    have hinput' := (List.prefix_append _ _).trans hinput
    have hpart' : (input ops).flatten.length < (h.render ++ body).length := by
      rw [List.length_append] at hpart
      omega
    have hfalse' : ∀ e, Op.getRequest e ∈ ops → e.needReply = false :=
      fun e he => hfalse e (List.mem_append_left _ he)
    have hun := ih hfalse' hops' hinput' hpart'
    refine guarded_append.mpr ⟨hun, ⟨hop, ?_⟩, trivial⟩
    exact open_of_part hbody hnew hfalse' hun hinput' hpart'

/-- A request all of which has come does not wait for more. -/
theorem not_waits {es : List Event} {r : HTTPRequest} :
    ¬(Fresh (h.render ++ body) es r ∨ Phase h body (h.render ++ body) es r) := by
  have hpos := h.render_pos
  rintro (hfresh | hphase)
  · have hnil := congrArg List.length hfresh.nothing
    rw [List.length_append, List.length_nil] at hnil
    omega
  · cases hphase with
    | head hr hlt hes =>
      rw [List.length_append] at hlt
      omega
    | body b rest hp hb hrest hst hlen hes =>
      have hbody := List.append_cancel_left hp
      rw [← hb] at hbody
      exact hrest (List.append_right_eq_self.mp hbody)

end Delivery

/-- **The handler is given exactly the body.** All bytes of the request come in the reads of a run
whose last call brings the last of them; no call refuses the request and `HandleRequest` asks for no
reply. Then this call, and no other, calls `PrepareResponse`, after everything else, and the data that
the handler was given until then are the body. It returns `kReadAll`, if `PrepareResponse` itself
keeps to the assertion of `SetStatusCode`, and leaves the connection ready for a new request; without
SSL nothing was written outside `rbuf_`. -/
theorem body_delivered (stringToLower : Bytes → Bytes) (security : Bool) (h : Head stringToLower)
    (body : Bytes) (hbody : body.length = h.contentLength) (c : HTTPConn)
    (hnew : c.request.reqStatus = .newRequest) (ops : List Op) (e : Env)
    (hfalse : ∀ e', Op.getRequest e' ∈ ops ++ [Op.getRequest e] → e'.needReply = false)
    (hops : Guarded (step stringToLower security) (Happens stringToLower security) c
      (ops ++ [Op.getRequest e]))
    (hpart : (input ops).flatten.length < (h.render ++ body).length)
    (hwhole : (input (ops ++ [Op.getRequest e])).flatten = h.render ++ body)
    (hok : ∀ call ∈ since c (run (step stringToLower security) c (ops ++ [Op.getRequest e])),
      call.1 ≠ some .readError) :
    ∃ calls evs st,
      since c (run (step stringToLower security) c (ops ++ [Op.getRequest e])) =
        calls ++ [(st, evs ++ [Event.prepareResponse])] ∧
      Event.prepareResponse ∉ calls.flatMap Prod.snd ++ evs ∧
      bodyData (calls.flatMap Prod.snd ++ evs) = body ∧
      (run (step stringToLower security) c (ops ++ [Op.getRequest e])).request.reqStatus =
        .newRequest ∧
      (st = none ∧ BadCode e.prepare ∨ st = some .readAll ∧ (security = false →
        (run (step stringToLower security) c (ops ++ [Op.getRequest e])).overflow = c.overflow)) := by
  obtain ⟨hops', hlast, -⟩ := guarded_append.mp hops
  have hfalse' : ∀ e', Op.getRequest e' ∈ ops → e'.needReply = false :=
    fun e' he => hfalse e' (List.mem_append_left _ he)
  have hpre : (input ops).flatten <+: h.render ++ body := by
    rw [← hwhole, input_append, List.flatten_append]
    exact List.prefix_append _ _
  have hun := unanswered_of_part hbody hnew hfalse' hops' hpre hpart
  have hopen := open_of_part hbody hnew hfalse' hun hpre hpart
  have hun' : Guarded (step stringToLower security) (Unanswered stringToLower security c) c
      (ops ++ [Op.getRequest e]) := guarded_append.mpr ⟨hun, ⟨hlast, hopen⟩, trivial⟩
  have hall : (input (ops ++ [Op.getRequest e])).flatten <+: h.render ++ body := by rw [hwhole]
  obtain ⟨-, hstand⟩ := run_stand hbody hnew hun' hall
  cases hstand with
  | refused hsmall herror hopen => exact absurd hok herror
  | waits hsmall hok hopen hphase =>
    rw [hwhole] at hphase
    exact absurd hphase not_waits
  | answered calls evs st e' hlast' hsmall hok hsince hst hopen hnew' hwhole' =>
    rw [List.getLast?_append_cons] at hlast'
    obtain rfl : e = e' := by simpa using hlast'
    refine ⟨calls, evs, st, hsince, hopen, (hwhole' (hfalse e (by simp))).2, hnew', ?_⟩
    rcases hst with rfl | hbad
    · refine .inr ⟨rfl, ?_⟩
      rintro rfl
      obtain ⟨hle, -⟩ := run_stand hbody hnew hun hpre
      exact run_overflow hops (goesOn_of_last hlast hle hsince)
    · exact .inl hbad

theorem body_delivered_upload :
    ∃ calls evs st,
      since {} (run (step asciiLower false) {} (uploadRun ++
        [Op.getRequest ⟨[.data (bytes "h"), .data (bytes "i")], false, [.setContentLength 0]⟩])) =
        calls ++ [(st, evs ++ [Event.prepareResponse])] ∧
      Event.prepareResponse ∉ calls.flatMap Prod.snd ++ evs ∧
      bodyData (calls.flatMap Prod.snd ++ evs) = bytes "hi" ∧
      (run (step asciiLower false) {} (uploadRun ++ [Op.getRequest
        ⟨[.data (bytes "h"), .data (bytes "i")], false,
          [.setContentLength 0]⟩])).request.reqStatus = .newRequest ∧
      (st = none ∧ BadCode [.setContentLength 0] ∨ st = some .readAll ∧ (false = false →
        (run (step asciiLower false) {} (uploadRun ++ [Op.getRequest
          ⟨[.data (bytes "h"), .data (bytes "i")], false, [.setContentLength 0]⟩])).overflow =
            ({} : HTTPConn).overflow)) :=
  body_delivered asciiLower false uploadHead (bytes "hi") (by decide +kernel) {} rfl uploadRun
    ⟨[.data (bytes "h"), .data (bytes "i")], false, [.setContentLength 0]⟩
    (by
      intro e he
      simp only [uploadRun, List.cons_append, List.nil_append, List.mem_cons, Op.getRequest.injEq,
        reduceCtorEq, List.not_mem_nil, or_false, false_or] at he
      rcases he with rfl | rfl | rfl <;> rfl)
    (by decide +kernel) (by decide +kernel) (by decide +kernel) (by decide +kernel)

end Pink.Http.Uploads
