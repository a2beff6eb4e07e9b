import Pink.Http.Heads

/-! # From the socket to the handler

One request whose head is well formed, with the body that its head announces, is received in any
number of reads, in any number of calls of `ReadData`, and replies may be sent in between. What has
come so far determines where the request stands (`Phase`): in the head, where all of it is in `rbuf_`,
or in the body, where what the handler was given and `rbuf_` are what has come of the body and the
counter is what is missing.

A call ends in one of three ways (`Ended`): the request is refused, exactly if a read that began
before the end of the header ended behind the first `kHTTPMaxHeader` bytes (`Small`); or it waits for
more; or it is answered, and then the handler has the whole body. -/

namespace Pink.Http.Delivery

open Pink.Redis.Wire Pink.Http.Request Pink.Http.Conn Pink.Http.Heads Pink.Lib.Runs
open Pink.Http.Handlers (Happens asciiLower sendReply_calls)
open Pink.Server.Threads (ReadStatus)

/-! ### Reads and calls of handlers -/

/-- The bytes that a read brings. -/
def piece : Recv → Option Bytes
  | .data bs => some bs
  | .again => none
  | .closed => none

def pieces (rs : List Recv) : List Bytes := rs.filterMap piece

/-- The pieces of input that the reads of a run bring. -/
def input (ops : List Op) : List Bytes :=
  ops.flatMap fun
    | .getRequest e => pieces e.reads
    | .sendReply _ => []

/-- **Every read that begins before the end of the header ends within the first `kHTTPMaxHeader`
bytes**; `n` bytes came before the reads. -/
def Small (headerLen : ℕ) : ℕ → List Bytes → Prop
  | _, [] => True
  | n, d :: ds =>
    (n < headerLen → n + d.length ≤ kHTTPMaxHeader) ∧ Small headerLen (n + d.length) ds

instance decidableSmall (headerLen : ℕ) : ∀ n ds, Decidable (Small headerLen n ds)
  | _, [] => .isTrue trivial
  | n, d :: ds =>
    have := decidableSmall headerLen (n + d.length) ds
    inferInstanceAs (Decidable (_ ∧ _))

theorem small_append (headerLen n : ℕ) (ds ds' : List Bytes) :
    Small headerLen n (ds ++ ds') ↔
      Small headerLen n ds ∧ Small headerLen (n + ds.flatten.length) ds' := by
  induction ds generalizing n with
  | nil => simp [Small]
  | cons d ds ih =>
    rw [List.cons_append, Small, Small, ih, and_assoc, List.flatten_cons, List.length_append,
      Nat.add_assoc]

/-- The body as the handler has been given it. -/
def bodyData (es : List Event) : Bytes :=
  es.flatMap fun
    | .handleBodyData data => data
    | _ => []

theorem bodyData_append (es es' : List Event) : bodyData (es ++ es') = bodyData es ++ bodyData es' :=
  List.flatMap_append

/-- The calls of `ReadData` made after `c`. -/
def since (c c' : HTTPConn) : List (Option ReadStatus × List Event) :=
  c'.calls.drop c.calls.length

/-- What the handler was called with in these calls. -/
def eventsSince (c c' : HTTPConn) : List Event := (since c c').flatMap Prod.snd

/-! ### Where a request stands -/

variable {stringToLower : Bytes → Bytes}

/-- The request when `p` has come and the handler was called with `es`. -/
inductive Phase (h : Head stringToLower) (body p : Bytes) (es : List Event) (r : HTTPRequest) : Prop
  | head (hr : r = { reqStatus := .headerReceiving, rbuf := p })
      (hlt : p.length < h.render.length) (hes : bodyData es = [])
  | body (b rest : Bytes) (hp : p = h.render ++ b) (hbody : b ++ rest = body) (hrest : rest ≠ [])
      (hst : r.reqStatus = .bodyReceiving) (hlen : r.remainRecvLen = rest.length)
      (hes : bodyData es ++ r.rbuf = b)

/-- The request before its first read. -/
structure Fresh (p : Bytes) (es : List Event) (r : HTTPRequest) : Prop where
  status : r.reqStatus = .newRequest
  nothing : p = []
  events : bodyData es = []

/-- All that is to be received has been received: the whole request, unless `HandleRequest` has asked
for a reply at once. -/
structure Received (h : Head stringToLower) (body : Bytes) (needReply : Bool) (p : Bytes)
    (es : List Event) (r : HTTPRequest) : Prop where
  status : r.reqStatus = .bodyReceived
  whole : needReply = false → p = h.render ++ body ∧ bodyData es = body

/-- What a legal handler does not do. -/
def BadCode (prepare : List Setter) : Prop :=
  ∃ code, Setter.setStatusCode code ∈ prepare ∧ goodStatus code = false

/-- How a call of `ReadData` ends after which `p` has come: `ds` are the pieces that came in it, and
`n` bytes came before. -/
inductive Ended (h : Head stringToLower) (body p : Bytes) (n : ℕ) (ds : List Bytes) (e : Env)
    (es : List Event) (r : HTTPRequest) (st : Option ReadStatus) : Prop
  | refused (hst : st = some .readError) (hsmall : ¬Small h.render.length n ds)
      (hopen : Event.prepareResponse ∉ es)
  | waits (hst : st ≠ some .readError) (hsmall : Small h.render.length n ds)
      (hopen : Event.prepareResponse ∉ es) (hphase : Fresh p es r ∨ Phase h body p es r)
  | answered (es' : List Event) (hes : es = es' ++ [.prepareResponse])
      (hst : st = some .readAll ∨ st = none ∧ BadCode e.prepare)
      (hsmall : Small h.render.length n ds) (hopen : Event.prepareResponse ∉ es')
      (hnew : r.reqStatus = .newRequest)
      (hwhole : e.needReply = false → p = h.render ++ body ∧ bodyData es' = body)

/-! ### One read -/

/-- What a read leads to: without bytes the call returns, and with bytes the turn goes on with
them. -/
theorem readThen_cases {security : Bool} {turn : Reading → Turn} {x : Reading} {r : Recv} {t : Turn}
    (h : readThen security turn x r = some t) :
    (piece r = none ∧ ∃ st, st ≠ .readError ∧ t = .ret (x.emit .handleConnClosed) (some st)) ∨
      ∃ bs x', r = .data bs ∧ bs.length ≤ readCount security x.request ∧ bs ≠ [] ∧
        x'.overflow =
          (x.overflow || decide (kHTTPMaxMessage < x.request.rbuf.length + bs.length)) ∧
        x'.events = x.events ∧ x'.request = { x.request with
          rbuf := x.request.rbuf ++ bs
          remainRecvLen :=
            if x.request.reqStatus = .bodyReceiving then subSize x.request.remainRecvLen bs.length
            else x.request.remainRecvLen } ∧ t = turn x' := by
  cases r with
  | again => exact .inl ⟨rfl, .readHalf, by decide, (Option.some.inj h).symm⟩
  | closed => exact .inl ⟨rfl, .readClose, by decide, (Option.some.inj h).symm⟩
  | data bs =>
    rw [readThen] at h
    dsimp only [doRead] at h
    by_cases hbs : bs = [] ∨ readCount security x.request < bs.length
    · rw [if_pos hbs] at h
      simp at h
    · rw [if_neg hbs] at h
      obtain ⟨hne, hle⟩ := not_or.mp hbs
      refine .inr ⟨bs, _, rfl, not_lt.mp hle, hne, ?_, ?_, ?_, (Option.some.inj h).symm⟩
      · rfl
      · rfl
      · rfl

/-- `case kHeaderReceiving` with a proper part of the head. -/
theorem headerTurn_part {h : Head stringToLower} {x : Reading} (needReply : Bool)
    (hpre : x.request.rbuf <+: h.render) (hlt : x.request.rbuf.length < h.render.length) :
    ∃ x', x'.request = x.request ∧ x'.events = x.events ∧
      headerTurn stringToLower x needReply =
        if kHTTPMaxHeader < x.request.rbuf.length then
          .ret (x'.emit .handleConnClosed) (some .readError)
        else .next x' := by
  refine ⟨{ x with overflow := x.overflow || decide (kHTTPMaxMessage ≤ x.request.rbuf.length) },
    rfl, rfl, ?_⟩
  rw [headerTurn]
  dsimp only
  rw [parseHeader_part h hpre hlt]

/-- What is known of a request when its head has been parsed. -/
structure Taken (h : Head stringToLower) (r r' : HTTPRequest) : Prop where
  rbuf : r'.rbuf = r.rbuf
  length : r'.remainRecvLen = h.contentLength

/-- `case kHeaderReceiving` with the whole head. -/
theorem headerTurn_whole {h : Head stringToLower} {x : Reading} {b : Bytes} (needReply : Bool)
    (hx : x.request = { reqStatus := .headerReceiving, rbuf := h.render ++ b }) :
    ∃ x', Taken h x.request x'.request ∧ x'.events = x.events ∧
      headerTurn stringToLower x needReply =
        if kHTTPMaxHeader < x.request.rbuf.length then
          .ret (x'.emit .handleConnClosed) (some .readError)
        else headerParsed x' needReply h.render.length := by
  have hparse := parseHeader_whole h { reqStatus := .headerReceiving } b
  have hsame : SameBuffer x.request (parseHeader stringToLower x.request).1 :=
    parseHeader_same x.request
  have hparse' : parseHeader stringToLower x.request =
      (takeHeaders (parseGetUrl (h.parsed x.request)) h.contentLength, .header h.render.length) := by
    rw [hx]
    exact hparse
  rw [hparse'] at hsame
  refine ⟨{ x with
    request := takeHeaders (parseGetUrl (h.parsed x.request)) h.contentLength
    overflow := x.overflow || decide (kHTTPMaxMessage ≤ x.request.rbuf.length) },
    ⟨hsame.1, rfl⟩, rfl, ?_⟩
  rw [headerTurn]
  dsimp only
  rw [hparse']
  dsimp only
  rw [hsame.1]

/-- What follows a parsed head, `b` being what has come of the body and `rest` what is missing. -/
theorem headerParsed_phase {h : Head stringToLower} {x : Reading} {b rest : Bytes} {es : List Event}
    (hrbuf : x.request.rbuf = h.render ++ b)
    (hlen : x.request.remainRecvLen = (b ++ rest).length) (hes : bodyData (es ++ x.events) = [])
    (hopen : Event.prepareResponse ∉ es ++ x.events) (needReply : Bool) :
    (headerParsed x needReply h.render.length).Holds
      (fun x' => Event.prepareResponse ∉ es ++ x'.events ∧
        (Phase h (b ++ rest) (h.render ++ b) (es ++ x'.events) x'.request ∨
          Received h (b ++ rest) needReply (h.render ++ b) (es ++ x'.events) x'.request))
      (fun x' st => st = some .readAll ∧ Event.prepareResponse ∉ es ++ x'.events ∧
        Phase h (b ++ rest) (h.render ++ b) (es ++ x'.events) x'.request) := by
  have hdrop : (h.render ++ b).drop h.render.length = b := List.drop_left
  have hsub : subSize (b ++ rest).length b.length = rest.length := by
    rw [subSize_of_le (by simp), List.length_append]
    omega
  have hopen' : Event.prepareResponse ∉ es ++ (x.events ++ [.handleRequest]) := by
    rw [← List.append_assoc, List.mem_append, not_or]
    exact ⟨hopen, by simp⟩
  have hes' : bodyData (es ++ (x.events ++ [.handleRequest])) = [] := by
    rw [← List.append_assoc, bodyData_append, hes]
    rfl
  unfold headerParsed
  cases needReply with
  | true => exact ⟨hopen', .inr ⟨rfl, fun hfalse => absurd hfalse (by simp)⟩⟩
  | false =>
    dsimp only [Reading.emit]
    rw [if_neg (by simp), hrbuf, hdrop, hlen, hsub]
    split_ifs with h100 hzero
    · have hrest : rest ≠ [] := fun hnil => h100.2 (by rw [hnil]; rfl)
      refine ⟨rfl, hopen', .body b rest rfl rfl hrest rfl rfl ?_⟩
      rw [hes', List.nil_append]
    · have hrest : rest = [] := List.length_eq_zero_iff.mp hzero
      subst hrest
      refine ⟨?_, .inr ⟨rfl, fun _ => ⟨by rw [List.append_nil], ?_⟩⟩⟩
      · dsimp only
        rw [← List.append_assoc, List.mem_append, not_or]
        exact ⟨hopen', by simp⟩
      · dsimp only
        rw [← List.append_assoc, bodyData_append, hes', List.append_nil]
        simp [bodyData]
    · have hrest : rest ≠ [] := fun hnil => hzero (by rw [hnil]; rfl)
      refine ⟨hopen', .inl (.body b rest rfl rfl hrest rfl rfl ?_)⟩
      rw [hes', List.nil_append]

/-- `case kBodyReceiving` with the next part of the body. -/
theorem bodyTurn_phase {h : Head stringToLower} {x : Reading} {b rest : Bytes} {es : List Event}
    (needReply : Bool) (hst : x.request.reqStatus = .bodyReceiving)
    (hlen : x.request.remainRecvLen = rest.length)
    (hes : bodyData (es ++ x.events) ++ x.request.rbuf = b)
    (hopen : Event.prepareResponse ∉ es ++ x.events) :
    ∃ x', bodyTurn x = .next x' ∧ Event.prepareResponse ∉ es ++ x'.events ∧
      (Phase h (b ++ rest) (h.render ++ b) (es ++ x'.events) x'.request ∨
        Received h (b ++ rest) needReply (h.render ++ b) (es ++ x'.events) x'.request) := by
  have hopen' : Event.prepareResponse ∉ es ++ (x.events ++ [.handleBodyData x.request.rbuf]) := by
    rw [← List.append_assoc, List.mem_append, not_or]
    exact ⟨hopen, by simp⟩
  have hes' : bodyData (es ++ (x.events ++ [.handleBodyData x.request.rbuf])) = b := by
    rw [← List.append_assoc, bodyData_append, ← hes]
    simp [bodyData]
  by_cases hzero : x.request.remainRecvLen = 0
  · have hrest : rest = [] := List.length_eq_zero_iff.mp (hlen.symm.trans hzero)
    subst hrest
    have hturn : bodyTurn x = .next { x with
        request := { x.request with rbuf := [], reqStatus := .bodyReceived }
        events := x.events ++ [.handleBodyData x.request.rbuf] } := by
      simp only [bodyTurn, hzero, or_true, if_true]
      rfl
    refine ⟨_, hturn, hopen', .inr ⟨rfl, fun _ => ⟨by rw [List.append_nil], ?_⟩⟩⟩
    rw [List.append_nil]
    exact hes'
  · have hrest : rest ≠ [] := fun hnil => hzero (by rw [hlen, hnil]; rfl)
    by_cases hfull : x.request.rbuf.length = kHTTPMaxMessage
    · -- the buffer is full: it goes to the handler, and starts again
      have hturn : bodyTurn x = .next { x with
          request := { x.request with rbuf := [] }
          events := x.events ++ [.handleBodyData x.request.rbuf] } := by
        simp only [bodyTurn, hfull, hzero, true_or, if_true, if_false]
        rfl
      refine ⟨_, hturn, hopen', .inl (.body b rest rfl rfl hrest hst hlen ?_)⟩
      rw [← hes']
      exact List.append_nil _
    · refine ⟨x, ?_, hopen, .inl (.body b rest rfl rfl hrest hst hlen hes)⟩
      rw [bodyTurn]
      dsimp only
      rw [if_neg (not_or.mpr ⟨hfull, hzero⟩), if_neg hzero]

/-! ### One call -/

theorem Phase.closed {h : Head stringToLower} {body p : Bytes} {es : List Event} {r : HTTPRequest}
    (hphase : Phase h body p es r) : Phase h body p (es ++ [.handleConnClosed]) r := by
  have hes : bodyData (es ++ [.handleConnClosed]) = bodyData es := by
    rw [bodyData_append]
    exact List.append_nil _
  cases hphase with
  | head hr hlt hdata => exact .head hr hlt (hes.trans hdata)
  | body b rest hp hbody hrest hst hlen hdata =>
    exact .body b rest hp hbody hrest hst hlen (by rw [hes]; exact hdata)

theorem open_closed {es es' : List Event} (h : Event.prepareResponse ∉ es ++ es') :
    Event.prepareResponse ∉ es ++ (es' ++ [.handleConnClosed]) := by
  rw [← List.append_assoc, List.mem_append, not_or]
  exact ⟨h, by simp⟩

section Call

variable {h : Head stringToLower} {body total : Bytes} {n : ℕ} {ds : List Bytes} {e : Env}
  {es : List Event} {security : Bool}

/-- A call of `ReadData` between two turns, with the reads that are still to come: `total` is what
will have come after it. -/
def Going (h : Head stringToLower) (body total : Bytes) (n : ℕ) (ds : List Bytes) (e : Env)
    (es : List Event) (rs : List Recv) (x : Reading) : Prop :=
  ∃ p, p ++ (pieces rs).flatten = total ∧
    (Small h.render.length n ds ↔ Small h.render.length p.length (pieces rs)) ∧
    Event.prepareResponse ∉ es ++ x.events ∧
    (Phase h body p (es ++ x.events) x.request ∨
      Received h body e.needReply p (es ++ x.events) x.request)

/-- A read that brings nothing ends the call. -/
theorem idle_ended {p : Bytes} {x : Reading} {r : Recv} {rs : List Recv} {st : ReadStatus}
    (hp : p ++ (pieces (r :: rs)).flatten = total)
    (hsmall : Small h.render.length n ds ↔ Small h.render.length p.length (pieces (r :: rs)))
    (hopen : Event.prepareResponse ∉ es ++ x.events)
    (hphase : Phase h body p (es ++ x.events) x.request) (hr : piece r = none)
    (hst : st ≠ .readError) (hrs : rs = []) :
    Ended h body total n ds e (es ++ (x.emit .handleConnClosed).events)
      (x.emit .handleConnClosed).request (some st) := by
  have hnil : pieces (r :: rs) = [] := by simp [pieces, hrs, hr]
  rw [hnil] at hp hsmall
  rw [List.flatten_nil, List.append_nil] at hp
  subst hp
  refine .waits (by simpa using hst) (hsmall.mpr trivial) (open_closed hopen) (.inr ?_)
  have hclosed := hphase.closed
  rw [List.append_assoc] at hclosed
  exact hclosed

/-- A turn of `case kHeaderReceiving`. -/
theorem header_going (hbody : body.length = h.contentLength) (htotal : total <+: h.render ++ body)
    {x : Reading} {r : Recv} {rs : List Recv} {t : Turn}
    (hgoing : Going h body total n ds e es (r :: rs) x)
    (hst : x.request.reqStatus = .headerReceiving)
    (ht : readThen security (fun x => headerTurn stringToLower x e.needReply) x r = some t) :
    t.Holds (Going h body total n ds e es rs)
      fun x' st => rs = [] → Ended h body total n ds e (es ++ x'.events) x'.request st := by
  obtain ⟨p, hp, hsmall, hopen, hphase | hrec⟩ := hgoing
  swap
  · rw [hrec.status] at hst
    simp at hst
  rcases readThen_cases ht with ⟨hr, st, hne, rfl⟩ | ⟨bs, x₁, rfl, -, -, -, hev, hreq, rfl⟩
  · exact fun hnil => idle_ended hp hsmall hopen hphase hr hne hnil
  cases hphase with
  | body b rest hpb hb hrest hst' hlen hes =>
    rw [hst'] at hst
    simp at hst
  | head hr hlt hes =>
    have hcons : pieces (.data bs :: rs) = bs :: pieces rs := rfl
    rw [hcons, List.flatten_cons, ← List.append_assoc] at hp
    rw [hcons, Small, ← List.length_append] at hsmall
    have hx₁ : x₁.request = { reqStatus := .headerReceiving, rbuf := p ++ bs } := by
      rw [hreq, hr]
      rfl
    have hrbuf : x₁.request.rbuf = p ++ bs := by rw [hx₁]
    have hpre : p ++ bs <+: h.render ++ body := (hp ▸ List.prefix_append _ _).trans htotal
    rw [← hev] at hopen hes
    -- a read behind the limit is refused whether or not it completes the head
    have herror : kHTTPMaxHeader < (p ++ bs).length → ∀ x₂ : Reading, x₂.events = x₁.events →
        Ended h body total n ds e (es ++ (x₂.emit .handleConnClosed).events)
          (x₂.emit .handleConnClosed).request (some .readError) := by
      intro hbig x₂ hx₂
      refine .refused rfl (fun hs => ?_) (open_closed (hx₂ ▸ hopen))
      exact absurd ((hsmall.mp hs).1 hlt) (not_le.mpr hbig)
    by_cases hpart : (p ++ bs).length < h.render.length
    · have hpre' : p ++ bs <+: h.render :=
        List.prefix_of_prefix_length_le hpre (List.prefix_append _ _) hpart.le
      obtain ⟨x₂, hreq₂, hev₂, hturn⟩ := headerTurn_part e.needReply
        (hrbuf.symm ▸ hpre') (hrbuf.symm ▸ hpart)
      rw [hturn, hrbuf]
      split_ifs with hbig
      · exact fun _ => herror hbig x₂ hev₂
      · refine ⟨p ++ bs, hp, ?_, hev₂ ▸ hopen, .inl (.head (hreq₂.trans hx₁) hpart (hev₂ ▸ hes))⟩
        rw [hsmall]
        exact and_iff_right fun _ => not_lt.mp hbig
    · obtain ⟨b, hb⟩ := List.prefix_of_prefix_length_le (List.prefix_append _ _) hpre
        (not_lt.mp hpart)
      obtain ⟨rest, hrest⟩ := (List.prefix_append_right_inj h.render).mp (hb.symm ▸ hpre)
      subst hrest
      rw [← hb] at hx₁ hrbuf hp hsmall herror
      obtain ⟨x₂, htaken, hev₂, hturn⟩ := headerTurn_whole e.needReply hx₁
      rw [hturn, hrbuf]
      split_ifs with hbig
      · exact fun _ => herror hbig x₂ hev₂
      · have hsmall' : Small h.render.length n ds ↔
            Small h.render.length (h.render ++ b).length (pieces rs) := by
          rw [hsmall]
          exact and_iff_right fun _ => not_lt.mp hbig
        rw [← hev₂] at hes hopen
        refine (headerParsed_phase (htaken.rbuf.trans hrbuf) (htaken.length.trans hbody.symm) hes hopen
          e.needReply).imp (fun x₃ hx₃ => ⟨h.render ++ b, hp, hsmall', hx₃.1, hx₃.2⟩) ?_
        rintro x₃ st ⟨rfl, hopen₃, hphase₃⟩ hnil
        rw [hnil] at hp hsmall'
        rw [show pieces [] = [] from rfl, List.flatten_nil, List.append_nil] at hp
        exact .waits (by simp) (hsmall'.mpr trivial) hopen₃ (.inr (hp ▸ hphase₃))

/-- A turn of `case kBodyReceiving`. -/
theorem body_going (htotal : total <+: h.render ++ body) {x : Reading} {r : Recv} {rs : List Recv}
    {t : Turn} (hgoing : Going h body total n ds e es (r :: rs) x)
    (hst : x.request.reqStatus = .bodyReceiving) (ht : readThen security bodyTurn x r = some t) :
    t.Holds (Going h body total n ds e es rs)
      fun x' st => rs = [] → Ended h body total n ds e (es ++ x'.events) x'.request st := by
  obtain ⟨p, hp, hsmall, hopen, hphase | hrec⟩ := hgoing
  swap
  · rw [hrec.status] at hst
    simp at hst
  rcases readThen_cases ht with ⟨hr, st, hne, rfl⟩ | ⟨bs, x₁, rfl, -, -, -, hev, hreq, rfl⟩
  · exact fun hnil => idle_ended hp hsmall hopen hphase hr hne hnil
  cases hphase with
  | head hr hlt hes =>
    rw [hr] at hst
    simp at hst
  | body b rest hpb hb hrest hst' hlen hes =>
    have hcons : pieces (.data bs :: rs) = bs :: pieces rs := rfl
    rw [hcons, List.flatten_cons, ← List.append_assoc] at hp
    rw [hcons, Small, ← List.length_append] at hsmall
    have hpre : p ++ bs <+: h.render ++ body := (hp ▸ List.prefix_append _ _).trans htotal
    -- the bytes that came are the next ones of the body
    rw [hpb, List.append_assoc, List.prefix_append_right_inj, ← hb,
      List.prefix_append_right_inj] at hpre
    obtain ⟨rest', rfl⟩ := hpre
    rw [hst, if_pos rfl, hlen] at hreq
    have hlen₁ : x₁.request.remainRecvLen = rest'.length := by
      rw [hreq]
      dsimp only
      rw [subSize_of_le (by simp), List.length_append]
      omega
    have hes₁ : bodyData (es ++ x₁.events) ++ x₁.request.rbuf = b ++ bs := by
      rw [hev, hreq, ← hes, List.append_assoc]
    have hst₁ : x₁.request.reqStatus = .bodyReceiving := by rw [hreq, hst']
    obtain ⟨x₂, hturn, hopen₂, hor⟩ := bodyTurn_phase (h := h) e.needReply hst₁ hlen₁ hes₁
      (hev ▸ hopen)
    rw [hturn]
    rw [List.append_assoc, hb, ← List.append_assoc, ← hpb] at hor
    refine ⟨p ++ bs, hp, ?_, hopen₂, hor⟩
    rw [hsmall]
    refine and_iff_right fun hlt => absurd hlt (not_lt.mpr ?_)
    rw [hpb, List.length_append]
    omega

/-- `PrepareResponse` fails only when a status code is not allowed. -/
theorem prepareResponse_none {prepare : List Setter} {resp : HTTPResponse}
    (hnone : prepareResponse resp prepare = none) : BadCode prepare := by
  induction prepare generalizing resp with
  | nil => simp [prepareResponse] at hnone
  | cons s ss ih =>
    rw [prepareResponse] at hnone
    cases hs : resp.set s with
    | some resp' =>
      rw [hs] at hnone
      obtain ⟨code, hmem, hbad⟩ := ih hnone
      exact ⟨code, List.mem_cons_of_mem _ hmem, hbad⟩
    | none =>
      cases s with
      | setStatusCode code =>
        refine ⟨code, List.mem_cons_self, ?_⟩
        by_contra hgood
        simp [HTTPResponse.set, hgood] at hs
      | setHeaders key value => simp [HTTPResponse.set] at hs
      | setHeadersNum key value => simp [HTTPResponse.set] at hs
      | setContentLength size =>
        rw [HTTPResponse.set] at hs
        dsimp only at hs
        split_ifs at hs
      | reset => simp [HTTPResponse.set] at hs

/-- `case kBodyReceived`. -/
theorem received_ended {x : Reading} (hgoing : Going h body total n ds e es [] x)
    (hst : x.request.reqStatus = .bodyReceived) :
    (receivedTurn x e.prepare).Holds (Going h body total n ds e es [])
      fun x' st => Ended h body total n ds e (es ++ x'.events) x'.request st := by
  obtain ⟨p, hp, hsmall, hopen, hphase | hrec⟩ := hgoing
  · cases hphase with
    | head hr hlt hes =>
      rw [hr] at hst
      simp at hst
    | body b rest hpb hb hrest hst' hlen hes =>
      rw [hst'] at hst
      simp at hst
  · rw [show pieces [] = [] from rfl, List.flatten_nil, List.append_nil] at hp
    subst hp
    have hsmall' := hsmall.mpr trivial
    unfold receivedTurn
    dsimp only [Reading.emit]
    cases hprep : prepareResponse x.response e.prepare with
    | none =>
      exact .answered (es ++ x.events) (List.append_assoc _ _ _).symm
        (.inr ⟨rfl, prepareResponse_none hprep⟩) hsmall' hopen rfl hrec.whole
    | some resp =>
      exact .answered (es ++ x.events) (List.append_assoc _ _ _).symm (.inl rfl) hsmall' hopen rfl
        hrec.whole

/-- **A call of `ReadData`** on a request of which `p` has come. -/
theorem readData_ended (hbody : body.length = h.contentLength) {c : HTTPConn} {p : Bytes}
    {x : Reading} {st : Option ReadStatus}
    (htotal : p ++ (pieces e.reads).flatten <+: h.render ++ body)
    (hopen : Event.prepareResponse ∉ es)
    (hphase : Fresh p es c.request ∨ Phase h body p es c.request)
    (hread : readData stringToLower security c e = some (x, st)) :
    Ended h body (p ++ (pieces e.reads).flatten) p.length (pieces e.reads) e (es ++ x.events)
      x.request st := by
  have hloop : ∀ {x₀ : Reading}, x₀.events = [] → Phase h body p es x₀.request →
      readLoop stringToLower security e e.reads x₀ = some (x, st) →
      Ended h body (p ++ (pieces e.reads).flatten) p.length (pieces e.reads) e (es ++ x.events)
        x.request st := by
    intro x₀ hev hphase hl
    refine readLoop_reads_rule (P := Going h body (p ++ (pieces e.reads).flatten) p.length
      (pieces e.reads) e es) (Q := fun x' st => Ended h body (p ++ (pieces e.reads).flatten) p.length
      (pieces e.reads) e (es ++ x'.events) x'.request st) ?_ ?_ ?_ ?_ hl
    · exact fun x r rs t hx hst ht => header_going hbody htotal hx hst ht
    · exact fun x r rs t hx hst ht => body_going htotal hx hst ht
    · exact fun x hx hst => received_ended hx hst
    · refine ⟨p, rfl, Iff.rfl, ?_, .inl ?_⟩ <;> rw [hev, List.append_nil]
      · exact hopen
      · exact hphase
  unfold readData at hread
  dsimp only at hread
  rcases hphase with hfresh | hphase
  · rw [if_pos hfresh.status] at hread
    obtain rfl := hfresh.nothing
    by_cases hfin : c.response.finished = true
    · rw [if_pos hfin] at hread
      exact hloop rfl (.head rfl h.render_pos hfresh.events) hread
    · rw [if_neg hfin] at hread
      split_ifs at hread with hnil
      obtain ⟨rfl, rfl⟩ := Prod.mk.inj (Option.some.inj hread)
      rw [hnil, List.append_nil]
      exact .waits (by simp) trivial hopen (.inl ⟨hfresh.status, rfl, hfresh.events⟩)
  · have hne : ¬c.request.reqStatus = .newRequest := by
      cases hphase with
      | head hr hlt hes => simp [hr]
      | body b rest hpb hb hrest hst hlen hes => simp [hst]
    rw [if_neg hne] at hread
    exact hloop rfl hphase hread

end Call

/-! ### A run -/

theorem since_append {c₀ c c' : HTTPConn} {l : List (Option ReadStatus × List Event)}
    (hle : c₀.calls.length ≤ c.calls.length) (hcalls : c'.calls = c.calls ++ l) :
    since c₀ c' = since c₀ c ++ l := by
  rw [since, since, hcalls, List.drop_append_of_le_length hle]

theorem eventsSince_append {c₀ c c' : HTTPConn} {l : List (Option ReadStatus × List Event)}
    (hle : c₀.calls.length ≤ c.calls.length) (hcalls : c'.calls = c.calls ++ l) :
    eventsSince c₀ c' = eventsSince c₀ c ++ l.flatMap Prod.snd := by
  rw [eventsSince, since_append hle hcalls, List.flatMap_append]
  rfl

theorem input_append (ops ops' : List Op) : input (ops ++ ops') = input ops ++ input ops' :=
  List.flatMap_append

/-- No call returned `kReadError`. -/
def Accepts (calls : List (Option ReadStatus × List Event)) : Prop :=
  ∀ call ∈ calls, call.1 ≠ some .readError

/-- The connection after a run that began with a new request in `c₀`. -/
inductive Stand (h : Head stringToLower) (body : Bytes) (c₀ : HTTPConn) (ops : List Op)
    (c : HTTPConn) : Prop
  | refused (hsmall : ¬Small h.render.length 0 (input ops)) (herror : ¬Accepts (since c₀ c))
      (hopen : Event.prepareResponse ∉ eventsSince c₀ c)
  | waits (hsmall : Small h.render.length 0 (input ops)) (hok : Accepts (since c₀ c))
      (hopen : Event.prepareResponse ∉ eventsSince c₀ c)
      (hphase : Fresh (input ops).flatten (eventsSince c₀ c) c.request ∨
        Phase h body (input ops).flatten (eventsSince c₀ c) c.request)
  | answered (calls : List (Option ReadStatus × List Event)) (evs : List Event)
      (st : Option ReadStatus) (e : Env) (hlast : ops.getLast? = some (.getRequest e))
      (hsmall : Small h.render.length 0 (input ops)) (hok : Accepts (since c₀ c))
      (hsince : since c₀ c = calls ++ [(st, evs ++ [.prepareResponse])])
      (hst : st = some .readAll ∨ st = none ∧ BadCode e.prepare)
      (hopen : Event.prepareResponse ∉ calls.flatMap Prod.snd ++ evs)
      (hnew : c.request.reqStatus = .newRequest)
      (hwhole : e.needReply = false → (input ops).flatten = h.render ++ body ∧
        bodyData (calls.flatMap Prod.snd ++ evs) = body)

/-- The last call of a handler in a list is made in the last part of the list. -/
theorem last_event {es es' xs : List Event} {a : Event} (heq : es ++ xs = es' ++ [a]) (ha : a ∉ es) :
    ∃ ys, xs = ys ++ [a] ∧ es' = es ++ ys := by
  rcases List.eq_nil_or_concat xs with rfl | ⟨ys, b, rfl⟩
  · rw [List.append_nil] at heq
    exact absurd (heq ▸ List.mem_append_right _ List.mem_cons_self) ha
  · rw [List.concat_eq_append, ← List.append_assoc] at heq
    obtain ⟨hes, hb⟩ := List.append_inj' heq rfl
    rw [List.concat_eq_append, (List.cons.inj hb).1]
    exact ⟨ys, rfl, hes.symm⟩

variable (stringToLower) in
/-- An event that can happen while the request that began in `c₀` is not answered. -/
def Unanswered (security : Bool) (c₀ c : HTTPConn) (op : Op) : Prop :=
  Happens stringToLower security c op ∧ Event.prepareResponse ∉ eventsSince c₀ c

instance (security : Bool) (c₀ c : HTTPConn) (op : Op) :
    Decidable (Unanswered stringToLower security c₀ c op) :=
  inferInstanceAs (Decidable (_ ∧ _))

/-- Before the request is answered, it has been refused or its parts are waited for. -/
theorem Stand.unanswered {h : Head stringToLower} {body : Bytes} {c₀ c : HTTPConn} {ops : List Op}
    (hstand : Stand h body c₀ ops c) (hopen : Event.prepareResponse ∉ eventsSince c₀ c) :
    (¬Small h.render.length 0 (input ops) ∧ ¬Accepts (since c₀ c)) ∨
      (Small h.render.length 0 (input ops) ∧ Accepts (since c₀ c) ∧
        (Fresh (input ops).flatten (eventsSince c₀ c) c.request ∨
          Phase h body (input ops).flatten (eventsSince c₀ c) c.request)) := by
  cases hstand with
  | refused hsmall herror => exact .inl ⟨hsmall, herror⟩
  | waits hsmall hok _ hphase => exact .inr ⟨hsmall, hok, hphase⟩
  | answered calls evs st e _ _ _ hsince =>
    refine absurd hopen (not_not.mpr ?_)
    rw [eventsSince, hsince]
    simp

theorem sendReply_stand {h : Head stringToLower} {body : Bytes} {c₀ c c' : HTTPConn}
    {ops : List Op} {o : Out} (hstand : Stand h body c₀ ops c)
    (hopen : Event.prepareResponse ∉ eventsSince c₀ c) (hcalls : c'.calls = c.calls)
    (hreq : c'.request = c.request) : Stand h body c₀ (ops ++ [.sendReply o]) c' := by
  have hsince : since c₀ c' = since c₀ c := by rw [since, since, hcalls]
  have hevents : eventsSince c₀ c' = eventsSince c₀ c := by rw [eventsSince, eventsSince, hsince]
  have hsame : input (ops ++ [.sendReply o]) = input ops := by
    rw [input_append]
    exact List.append_nil _
  rcases hstand.unanswered hopen with ⟨hsmall, herror⟩ | ⟨hsmall, hok, hphase⟩
  · refine .refused ?_ ?_ ?_
    · rwa [hsame]
    · rwa [hsince]
    · rwa [hevents]
  · refine .waits ?_ ?_ ?_ ?_
    · rwa [hsame]
    · rwa [hsince]
    · rwa [hevents]
    · rwa [hsame, hevents, hreq]

theorem getRequest_stand {h : Head stringToLower} {body : Bytes}
    (hbody : body.length = h.contentLength) {security : Bool} {c₀ c c' : HTTPConn} {ops : List Op}
    {e : Env} (hle : c₀.calls.length ≤ c.calls.length) (hstand : Stand h body c₀ ops c)
    (hopen : Event.prepareResponse ∉ eventsSince c₀ c) (halive : c.alive)
    (hget : getRequest stringToLower security c e = some c')
    (hinput : (input (ops ++ [.getRequest e])).flatten <+: h.render ++ body) :
    c₀.calls.length ≤ c'.calls.length ∧ Stand h body c₀ (ops ++ [.getRequest e]) c' := by
  obtain ⟨x, st, hread, hcalls, hreq, -⟩ := Handlers.getRequest_calls hget
  have hsince := since_append hle hcalls
  have hevents : eventsSince c₀ c' = eventsSince c₀ c ++ x.events := by
    rw [eventsSince_append hle hcalls]
    simp
  have hin : input (ops ++ [.getRequest e]) = input ops ++ pieces e.reads := by
    rw [input_append]
    simp [input]
  have hsmall_iff := small_append h.render.length 0 (input ops) (pieces e.reads)
  rw [Nat.zero_add] at hsmall_iff
  refine ⟨by rw [hcalls, List.length_append]; omega, ?_⟩
  rcases hstand.unanswered hopen with ⟨-, herror⟩ | ⟨hsmall, hok, hphase⟩
  · -- the loop has closed the connection
    refine absurd (fun call hcall hst => ?_) herror
    have hgo := HTTPConn.goesOn_of_alive halive (List.mem_of_mem_drop hcall)
    rw [hst] at hgo
    simp [goesOn] at hgo
  rw [hin, List.flatten_append] at hinput
  have hok' : st ≠ some .readError → Accepts (since c₀ c') := by
    intro hst call hcall
    rw [hsince, List.mem_append, List.mem_singleton] at hcall
    rcases hcall with hcall | rfl
    · exact hok call hcall
    · exact hst
  cases readData_ended hbody hinput hopen hphase hread with
  | refused hst hsmall' hopen' =>
    refine .refused ?_ (fun hacc => ?_) (by rwa [hevents])
    · rw [hin, hsmall_iff]
      exact fun hs => hsmall' hs.2
    · refine hacc (st, x.events) ?_ hst
      rw [hsince]
      exact List.mem_append_right _ List.mem_cons_self
  | waits hst hsmall' hopen' hphase' =>
    refine .waits ?_ (hok' hst) (by rwa [hevents]) ?_
    · rw [hin, hsmall_iff]
      exact ⟨hsmall, hsmall'⟩
    · rw [hin, List.flatten_append, hevents, hreq]
      exact hphase'
  | answered es' hes hst hsmall' hopen' hnew hwhole =>
    obtain ⟨evs, hevs, rfl⟩ := last_event hes hopen
    refine .answered (since c₀ c) evs st e (by simp) ?_ (hok' ?_) (by rw [hsince, hevs]) hst
      hopen' (by rw [hreq, hnew]) ?_
    · rw [hin, hsmall_iff]
      exact ⟨hsmall, hsmall'⟩
    · rcases hst with rfl | ⟨rfl, -⟩ <;> simp
    · rw [hin, List.flatten_append]
      exact hwhole

/-- **A step of the run.** -/
theorem step_stand {h : Head stringToLower} {body : Bytes} (hbody : body.length = h.contentLength)
    {security : Bool} {c₀ c : HTTPConn} {ops : List Op} {op : Op}
    (hle : c₀.calls.length ≤ c.calls.length) (hstand : Stand h body c₀ ops c)
    (hop : Unanswered stringToLower security c₀ c op)
    (hinput : (input (ops ++ [op])).flatten <+: h.render ++ body) :
    c₀.calls.length ≤ (step stringToLower security c op).calls.length ∧
      Stand h body c₀ (ops ++ [op]) (step stringToLower security c op) := by
  obtain ⟨c', hc'⟩ := Option.isSome_iff_exists.mp hop.1
  rw [step, hc', Option.getD_some]
  cases op with
  | sendReply o =>
    obtain ⟨hcalls, hreq⟩ := sendReply_calls (stepOption_sendReply.mp hc').2
    exact ⟨by rw [hcalls]; exact hle, sendReply_stand hstand hop.2 hcalls hreq⟩
  | getRequest e =>
    obtain ⟨halive, hget⟩ := stepOption_getRequest.mp hc'
    exact getRequest_stand hbody hle hstand hop.2 halive hget hinput

/-- **The run as a whole.** -/
theorem run_stand {h : Head stringToLower} {body : Bytes} (hbody : body.length = h.contentLength)
    {security : Bool} {c : HTTPConn} (hnew : c.request.reqStatus = .newRequest) {ops : List Op}
    (hops : Guarded (step stringToLower security) (Unanswered stringToLower security c) c ops)
    (hinput : (input ops).flatten <+: h.render ++ body) :
    c.calls.length ≤ (run (step stringToLower security) c ops).calls.length ∧
      Stand h body c ops (run (step stringToLower security) c ops) := by
  induction ops using List.reverseRecOn with
  | nil =>
    have hsince : since c c = [] := by rw [since, List.drop_length]
    refine ⟨le_rfl, .waits trivial ?_ ?_ (.inl ⟨hnew, rfl, ?_⟩)⟩
    · intro call hcall
      rw [run, List.foldl_nil, hsince] at hcall
      simp at hcall
    · rw [run, List.foldl_nil, eventsSince, hsince]
      simp
    · rw [run, List.foldl_nil, eventsSince, hsince]
      rfl
  | append_singleton ops op ih =>
    obtain ⟨hops', hop⟩ := guarded_append.mp hops
    have hpre : (input ops).flatten <+: h.render ++ body := by
      refine List.IsPrefix.trans ?_ hinput
      rw [input_append, List.flatten_append]
      exact List.prefix_append _ _
    obtain ⟨hle, hstand⟩ := ih hops' hpre
    rw [run_append]
    exact step_stand hbody hle hstand hop.1 hinput

end Pink.Http.Delivery
