import Pink.Http.Replies

/-! # A response on its way out

A response is written by calls of `Flush`, as far as the socket takes it. `wbuf_` holds the header
first, and then parts of the body, each filled in by the handler where the last one ended, or at the
beginning of the buffer once its end is reached. `Sending` says what has been written; here is where
it stands in the buffer (`Placed`), and that the handler is asked for the body in order and for no
more of it than is left (`flush_step`). So after any number of calls a prefix of the response has been
written, each write was of bytes within the buffer, and `finished_` is set after the last byte
(`flush_in_order`). -/

namespace Pink.Http.Sending

open Pink.Redis.Wire Pink.Lib.Runs Pink.Http.Request Pink.Http.Conn Pink.Http.Replies

/-! ### The parts of a call -/

/-- A call of `Flush` after its parts for the header, unless it returns there. -/
def afterHeader (r : HTTPResponse) (o : Out) : Option Flushing :=
  match prepareHeader { resp := r } with
  | .ret _ _ => none
  | .next x =>
    match sendHeader x o.header with
    | .ret _ _ => none
    | .next x => some x

/-- The response for which a call writes some of the header. -/
def headerWrite (r : HTTPResponse) : Option HTTPResponse :=
  match prepareHeader { resp := r } with
  | .ret _ _ => none
  | .next x => if x.resp.respStatus = .sendingHeader then some x.resp else none

/-- The response for which the part for the body calls `WriteResponseBody`. -/
def handlerCall (x : Flushing) : Option HTTPResponse :=
  if x.resp.respStatus = .sendingBody ∧ x.resp.remainSendLen ≠ 0 ∧ x.resp.pending = [] then
    some x.resp
  else none

/-- The response for which it writes. -/
def bodyWrite (x : Flushing) (fill : Option Bytes) : Option HTTPResponse :=
  if x.resp.respStatus = .sendingBody ∧ x.resp.remainSendLen ≠ 0 then
    match fillBody x fill with
    | some (x, true) => some x.resp
    | _ => none
  else none

/-- `needed_size`, the size that `WriteResponseBody` is given. -/
def neededSize (r : HTTPResponse) : ℕ := min (kHTTPMaxMessage - r.wbufPos) r.remainSendLen

/-! ### The run -/

/-- A response being sent: what has been written, and what the handler has filled in. -/
structure Sent where
  resp : HTTPResponse
  out : Bytes := []
  filled : Bytes := []

/-- A call of `Flush`. -/
def flushStep (s : Sent) (o : Out) : Sent :=
  match flush s.resp o with
  | none => s
  | some (x, _) => ⟨x.resp, s.out ++ x.out, s.filled ++ x.filled⟩

/-- What surrounds a call: the response is not finished, no write fails, and the handler supplies some
of the next bytes of the body, as many as there is room for at most. -/
structure Supplied (body : Bytes) (s : Sent) (o : Out) : Prop where
  unfinished : s.resp.finished = false
  header_ok : o.header ≠ .failed
  body_ok : o.body ≠ .failed
  supply : ∀ r ∈ (afterHeader s.resp o).bind handlerCall,
    ∃ bs ∈ o.fill, bs ≠ [] ∧ bs <+: body.drop s.filled.length ∧ bs.length ≤ neededSize r

instance (body : Bytes) (s : Sent) (o : Out) : Decidable (Supplied body s o) :=
  decidable_of_iff (s.resp.finished = false ∧ o.header ≠ .failed ∧ o.body ≠ .failed ∧
      ∀ r ∈ (afterHeader s.resp o).bind handlerCall,
        ∃ bs ∈ o.fill, bs ≠ [] ∧ bs <+: body.drop s.filled.length ∧ bs.length ≤ neededSize r)
    ⟨fun h => ⟨h.1, h.2.1, h.2.2.1, h.2.2.2⟩, fun h => ⟨h.1, h.2, h.3, h.4⟩⟩

/-- The bytes of a write are within `wbuf_`, and those of the body are not more than are left to
send. -/
structure SafeWrite (r : HTTPResponse) : Prop where
  within : r.wbufPos + r.pending.length ≤ kHTTPMaxMessage
  left : r.respStatus = .sendingBody → r.pending.length ≤ r.remainSendLen

/-- **A call does not fail, and each of its writes is safe.** -/
structure SafeCall (s : Sent) (o : Out) : Prop where
  returns : ∃ x, flush s.resp o = some (x, true)
  header : ∀ r ∈ headerWrite s.resp, SafeWrite r
  body : ∀ r ∈ (afterHeader s.resp o).bind (bodyWrite · o.fill), SafeWrite r

/-! ### The header -/

theorem serialize_of_lt {texts : List Bytes} {w : Bytes}
    (h : w.length + texts.flatten.length < kHTTPMaxHeader) :
    serialize texts w.length w = some (w.length + texts.flatten.length, w ++ texts.flatten) := by
  induction texts generalizing w with
  | nil => simp [serialize]
  | cons text texts ih =>
    have hlen : w.length + (text.length + texts.flatten.length) < kHTTPMaxHeader := by
      simpa using h
    have hsmall : kHTTPMaxHeader < 2 ^ 31 := by decide
    have hprint : snprintfAt w w.length (kHTTPMaxHeader - w.length) text = w ++ text := by
      rw [snprintfAt, Nat.sub_self, List.take_of_length_le (by omega)]
      simp
    have hgo := ih (w := w ++ text) (by rw [List.length_append]; omega)
    rw [List.length_append] at hgo
    have hlarge : ¬(2 ^ 31 ≤ text.length ∨ w.length + text.length = kHTTPMaxHeader) := by omega
    dsimp only [serialize]
    rw [if_neg hlarge, if_pos (by omega), hprint, hgo]
    simp [Nat.add_assoc]

/-- A header that is shorter than the limit is printed. -/
theorem serializeHeader_of_lt {r : HTTPResponse} (h : (head r).length < kHTTPMaxHeader) :
    serializeHeader r = some (head r) := by
  have hprint := @serialize_of_lt (headTexts r) [] (by simpa [head] using h)
  rw [List.length_nil, Nat.zero_add, List.nil_append] at hprint
  rw [serializeHeader, hprint]
  dsimp only
  rw [← head, if_neg (not_lt.mpr h.le), List.take_length]

/-! ### One call -/

/-- Where the bytes in the buffer are. -/
inductive Placed (r : HTTPResponse) : Prop
  | prepare (hstatus : r.respStatus = .prepareHeader) (hpos : r.wbufPos = 0)
  | header (hstatus : r.respStatus = .sendingHeader)
      (hend : r.wbufPos + r.pending.length ≤ kHTTPMaxMessage)
  | body (hstatus : r.respStatus = .sendingBody)
      (hend : r.wbufPos + r.pending.length ≤ kHTTPMaxMessage) (hpos : r.wbufPos < kHTTPMaxMessage)

section Call

variable {p : HTTPResponse} {out filled body : Bytes} {x : Flushing}

theorem Placed.end_le {r : HTTPResponse} (h : Placed r) (hst : r.respStatus ≠ .prepareHeader) :
    r.wbufPos + r.pending.length ≤ kHTTPMaxMessage := by
  cases h with
  | prepare hstatus => exact absurd hstatus hst
  | header _ hend => exact hend
  | body _ hend => exact hend

theorem prepareHeader_placed {r : HTTPResponse}
    (hhead : r.respStatus = .prepareHeader → (head r).length < kHTTPMaxHeader) (h : Placed r) :
    ∃ x, prepareHeader { resp := r } = .next x ∧ Placed x.resp ∧
      x.resp.respStatus ≠ .prepareHeader ∧ x.out = [] ∧ x.filled = [] := by
  unfold prepareHeader
  by_cases hst : r.respStatus = .prepareHeader
  · rw [if_pos hst, serializeHeader_of_lt (hhead hst)]
    refine ⟨_, rfl, .header rfl ?_, by simp, rfl, rfl⟩
    cases h with
    | header hstatus => simp [hst] at hstatus
    | body hstatus => simp [hst] at hstatus
    | prepare _ hpos =>
      have hlt : kHTTPMaxHeader < kHTTPMaxMessage := by decide
      have hshort := hhead hst
      dsimp only
      omega
  · rw [if_neg hst]
    exact ⟨_, rfl, h, hst, rfl, rfl⟩

/-- The write of the header, or of a part of it. -/
theorem sendHeader_placed {w : Written} (hw : w ≠ .failed) (hcode : x.resp.statusCode ≠ 100)
    (h : Placed x.resp) (hst : x.resp.respStatus ≠ .prepareHeader) :
    ∃ x', (sendHeader x w = .next x' ∨ sendHeader x w = .ret x' true) ∧ Placed x'.resp ∧
      x'.filled = x.filled := by
  unfold sendHeader
  by_cases hhead : x.resp.respStatus = .sendingHeader
  · dsimp only
    rw [if_pos hhead]
    cases w with
    | failed => exact absurd rfl hw
    | again => exact ⟨x, .inr rfl, h, rfl⟩
    | wrote k =>
      dsimp only
      have hend := h.end_le hst
      by_cases hall : min (k + 1) x.resp.pending.length = x.resp.pending.length
      · rw [if_pos hall, if_neg hcode]
        exact ⟨_, .inl rfl, .body rfl (by simp) (by dsimp only; decide), rfl⟩
      · rw [if_neg hall]
        refine ⟨_, .inl rfl, .header hhead ?_, rfl⟩
        dsimp only
        rw [List.length_drop]
        omega
  · dsimp only
    rw [if_neg hhead]
    exact ⟨x, .inl rfl, h, rfl⟩

/-- What the handler fills in. -/
theorem fillBody_placed {fill : Option Bytes} (hst : x.resp.respStatus = .sendingBody)
    (h : Placed x.resp) (hleft : x.resp.pending.length ≤ x.resp.remainSendLen)
    (hfilled : x.filled = [])
    (hsupply : x.resp.pending = [] → ∃ bs ∈ fill, bs ≠ [] ∧
      bs <+: body.drop filled.length ∧ bs.length ≤ neededSize x.resp)
    (hbody : filled <+: body) :
    ∃ x', fillBody x fill = some (x', true) ∧ Placed x'.resp ∧ x'.resp.respStatus = .sendingBody ∧
      x'.resp.pending ≠ [] ∧ x'.resp.pending.length ≤ x'.resp.remainSendLen ∧
      filled ++ x'.filled <+: body := by
  unfold fillBody
  dsimp only
  by_cases hempty : x.resp.pending = []
  · obtain ⟨bs, rfl, hne, hpre, hfit⟩ := hsupply hempty
    rw [if_pos hempty]
    dsimp only
    have hroom := hfit
    rw [neededSize] at hroom
    rw [if_neg (not_lt.mpr hroom)]
    refine ⟨_, rfl, ?_, hst, hne, hroom.trans (min_le_right _ _), ?_⟩
    · cases h with
      | prepare hstatus => simp [hst] at hstatus
      | header hstatus => simp [hst] at hstatus
      | body _ _ hpos => exact .body hst (by dsimp only; omega) hpos
    · dsimp only
      rw [hfilled, List.nil_append]
      conv_rhs => rw [← List.take_append_drop filled.length body]
      rw [← List.prefix_iff_eq_take.mp hbody]
      exact (List.prefix_append_right_inj _).mpr hpre
  · rw [if_neg hempty]
    refine ⟨x, rfl, h, hst, hempty, hleft, ?_⟩
    rw [hfilled, List.append_nil]
    exact hbody

/-- The write of a part of the body: the buffer is begun anew exactly when its end is reached. -/
theorem sendChunk_placed {w : Written} (hw : w ≠ .failed) (h : Placed x.resp)
    (hst : x.resp.respStatus = .sendingBody) (hne : x.resp.pending ≠ []) :
    ∃ x', sendChunk x w = (x', true) ∧ Placed x'.resp ∧ x'.filled = x.filled := by
  unfold sendChunk
  dsimp only
  rw [if_neg hne]
  cases w with
  | failed => exact absurd rfl hw
  | again => exact ⟨x, rfl, h, rfl⟩
  | wrote k =>
    refine ⟨_, rfl, ?_, rfl⟩
    have hend := h.end_le (by rw [hst]; simp)
    refine .body hst ?_ ?_ <;> dsimp only
    · rw [List.length_drop]
      split_ifs <;> omega
    · split_ifs
      · decide
      · omega

/-- The part of `Flush` for the body. -/
theorem sendBody_placed {fill : Option Bytes} {w : Written} (hw : w ≠ .failed)
    (h : Placed x.resp) (hgoing : Going p out filled x) (hfilled : x.filled = [])
    (hsupply : ∀ r ∈ handlerCall x, ∃ bs ∈ fill, bs ≠ [] ∧
      bs <+: body.drop filled.length ∧ bs.length ≤ neededSize r)
    (hbody : filled <+: body) :
    ∃ x', sendBody x fill w = some (x', true) ∧ filled ++ x'.filled <+: body ∧
      (Placed x'.resp ∨ x'.resp.finished = true) ∧ ∀ r ∈ bodyWrite x fill, SafeWrite r := by
  unfold sendBody
  dsimp only
  by_cases hst : x.resp.respStatus = .sendingBody
  · rw [if_pos hst]
    by_cases hzero : x.resp.remainSendLen = 0
    · rw [if_pos hzero]
      refine ⟨_, rfl, by rwa [hfilled, List.append_nil], .inr rfl, ?_⟩
      simp [bodyWrite, hzero]
    · have hleft : x.resp.pending.length ≤ x.resp.remainSendLen := by
        cases hgoing with
        | prepare hr hclean => rw [hr, hclean.status] at hst; simp at hst
        | header hstatus => simp [hst] at hstatus
        | body _ _ _ _ _ hpending => exact hpending
      have hask : x.resp.pending = [] → x.resp ∈ handlerCall x := by
        intro hempty
        rw [handlerCall, if_pos ⟨hst, hzero, hempty⟩]
        rfl
      obtain ⟨x₁, hfill, hp₁, hst₁, hne, hleft₁, hbody₁⟩ :=
        fillBody_placed hst h hleft hfilled (fun hempty => hsupply _ (hask hempty)) hbody
      obtain ⟨x₂, hsend, hp₂, hfilled₂⟩ := sendChunk_placed hw hp₁ hst₁ hne
      rw [if_neg hzero, hfill]
      refine ⟨x₂, congrArg some hsend, by rwa [hfilled₂], .inl hp₂, fun r hr => ?_⟩
      rw [bodyWrite, if_pos ⟨hst, hzero⟩, hfill] at hr
      obtain rfl := Option.some.inj hr
      exact ⟨hp₁.end_le (by rw [hst₁]; simp), fun _ => hleft₁⟩
  · rw [if_neg hst]
    refine ⟨x, rfl, by rwa [hfilled, List.append_nil], .inl h, ?_⟩
    simp [bodyWrite, hst]

/-- **A call of `Flush`** for a response `p` does not fail, its writes are safe, and the handler's
bytes are the next ones of the body. -/
theorem flush_safe {s : Sent} {o : Out} (hhead : (head p).length < kHTTPMaxHeader)
    (hcode : p.statusCode ≠ 100) (hsending : Sending p s.resp s.out s.filled)
    (hplaced : Placed s.resp) (hbody : s.filled <+: body) (hop : Supplied body s o) :
    SafeCall s o ∧ ∃ x, flush s.resp o = some (x, true) ∧ s.filled ++ x.filled <+: body ∧
      (Placed x.resp ∨ x.resp.finished = true) := by
  have hhead' : s.resp.respStatus = .prepareHeader → (head s.resp).length < kHTTPMaxHeader := by
    intro hst
    cases hsending with
    | prepare hr => rwa [hr]
    | header hstatus => simp [hst] at hstatus
    | body hstatus => simp [hst] at hstatus
  have hgoing : Going p s.out s.filled { resp := s.resp } := by
    show Sending p s.resp (s.out ++ []) (s.filled ++ [])
    rwa [List.append_nil, List.append_nil]
  obtain ⟨x₁, hprep, hp₁, hst₁, hout₁, hfilled₁⟩ := prepareHeader_placed hhead' hplaced
  have hgoing₁ := prepareHeader_going hgoing hprep
  have hcode₁ : x₁.resp.statusCode ≠ 100 := by rw [Sending.code hgoing₁]; exact hcode
  obtain ⟨x₂, hsend, hp₂, hfilled₂⟩ := sendHeader_placed hop.header_ok hcode₁ hp₁ hst₁
  have hwrite : ∀ r ∈ headerWrite s.resp, SafeWrite r := by
    intro r hr
    rw [headerWrite, hprep] at hr
    dsimp only at hr
    split_ifs at hr with hst
    · obtain rfl := Option.some.inj hr
      exact ⟨hp₁.end_le hst₁, fun h => by simp [hst] at h⟩
    · simp at hr
  rw [hfilled₁] at hfilled₂
  rcases hsend with hsend | hsend
  · have hafter : afterHeader s.resp o = some x₂ := by
      rw [afterHeader, hprep]
      dsimp only
      rw [hsend]
    have hsupply := hop.supply
    rw [hafter, Option.bind_some] at hsupply
    obtain ⟨x, hsent, hbody', hplaced', hsafe⟩ := sendBody_placed hop.body_ok hp₂
      (sendHeader_next hcode hgoing₁ hsend) hfilled₂ hsupply hbody
    have hflush : flush s.resp o = some (x, true) := by
      rw [flush, hprep]
      dsimp only
      rw [hsend]
      exact hsent
    refine ⟨⟨⟨x, hflush⟩, hwrite, ?_⟩, x, hflush, hbody', hplaced'⟩
    rw [hafter, Option.bind_some]
    exact hsafe
  · have hafter : afterHeader s.resp o = none := by
      rw [afterHeader, hprep]
      dsimp only
      rw [hsend]
    have hflush : flush s.resp o = some (x₂, true) := by
      rw [flush, hprep]
      dsimp only
      rw [hsend]
    refine ⟨⟨⟨x₂, hflush⟩, hwrite, ?_⟩, x₂, hflush, ?_, .inl hp₂⟩
    · rw [hafter]
      simp
    · rwa [hfilled₂, List.append_nil]

end Call

/-! ### A run -/

/-- A response on its way out: the handler has supplied the first bytes of the body, and it is being
sent, or has been. -/
structure Inv (p : HTTPResponse) (body : Bytes) (s : Sent) : Prop where
  filled : s.filled <+: body
  state : Sending p s.resp s.out s.filled ∧ Placed s.resp ∨
    s.resp.finished = true ∧ Complete p s.out s.filled

theorem flush_step {p : HTTPResponse} {body : Bytes} (hhead : (head p).length < kHTTPMaxHeader)
    (hcode : p.statusCode ≠ 100) {s : Sent} {o : Out} (hinv : Inv p body s)
    (hop : Supplied body s o) : SafeCall s o ∧ Inv p body (flushStep s o) := by
  obtain ⟨hfilled, ⟨hsending, hplaced⟩ | ⟨hfin, -⟩⟩ := hinv
  · obtain ⟨hsafe, x, hflush, hbody, hplaced'⟩ :=
      flush_safe hhead hcode hsending hplaced hfilled hop
    have hstep : flushStep s o = ⟨x.resp, s.out ++ x.out, s.filled ++ x.filled⟩ := by
      rw [flushStep, hflush]
    rw [hstep]
    refine ⟨hsafe, hbody, ?_⟩
    rcases flush_sending hcode hsending hflush with hgo | hdone
    · refine .inl ⟨hgo, hplaced'.resolve_right ?_⟩
      simp [hgo.notFinished]
    · exact .inr hdone
  · rw [hop.unfinished] at hfin
    simp at hfin

/-- What has been written of a response is a prefix of it. -/
theorem Inv.out_le {p : HTTPResponse} {body : Bytes} {s : Sent} (h : Inv p body s) :
    s.out <+: head p ++ body.take p.remainSendLen ∧
      (s.resp.finished = true → s.out = head p ++ body.take p.remainSendLen) := by
  have htake : s.filled.length ≤ p.remainSendLen → s.filled <+: body.take p.remainSendLen := by
    intro hle
    refine List.prefix_take_iff.mpr ⟨h.filled, hle⟩
  rcases h.state with ⟨hsending, -⟩ | ⟨-, hout, hlen⟩
  · refine ⟨?_, fun hfin => by simp [hsending.notFinished] at hfin⟩
    cases hsending with
    | prepare hr hclean hout => rw [hout]; exact List.nil_prefix
    | header _ _ _ _ hout =>
      rw [← hout, List.append_assoc]
      exact List.prefix_append _ _
    | body _ _ _ hout hlen hpending =>
      have hpre : s.out <+: head p ++ s.filled := ⟨_, hout⟩
      exact hpre.trans ((List.prefix_append_right_inj _).mpr (htake (by omega)))
  · have hall : s.filled = body.take p.remainSendLen := by
      rw [← hlen]
      exact List.prefix_iff_eq_take.mp h.filled
    rw [hout, hall]
    exact ⟨List.prefix_rfl, fun _ => rfl⟩

/-- The handler's calls leave the response at the beginning of the buffer. -/
theorem prepareResponse_wbufPos {ss : List Setter} {r r' : HTTPResponse} (h : r.wbufPos = 0)
    (hs : prepareResponse r ss = some r') : r'.wbufPos = 0 := by
  induction ss generalizing r with
  | nil =>
    obtain rfl := Option.some.inj hs
    exact h
  | cons s ss ih =>
    obtain ⟨r₁, h₁, h₂⟩ := Option.bind_eq_some_iff.mp hs
    refine ih ?_ h₂
    cases s with
    | reset =>
      obtain rfl := Option.some.inj h₁
      rfl
    | setStatusCode code =>
      dsimp only [HTTPResponse.set] at h₁
      split_ifs at h₁
      obtain rfl := Option.some.inj h₁
      exact h
    | setHeaders key value =>
      obtain rfl := Option.some.inj h₁
      exact h
    | setHeadersNum key value =>
      obtain rfl := Option.some.inj h₁
      exact h
    | setContentLength size =>
      dsimp only [HTTPResponse.set] at h₁
      split_ifs at h₁
      all_goals
        obtain rfl := Option.some.inj h₁
        exact h

/-- **A response is sent in order.** Of a response that was prepared after `Reset`, a prefix of its
header and its body has been written after any calls of `Flush`; each call is safe; and all of it has
been written when `finished_` is set. -/
theorem flush_in_order {r₀ r : HTTPResponse} {ss : List Setter}
    (hr : prepareResponse r₀.reset ss = some r) (hcode : r.statusCode ≠ 100)
    (hhead : (head r).length < kHTTPMaxHeader) (body : Bytes) {ops : List Out}
    (hops : Guarded flushStep (Supplied body) { resp := r } ops) :
    let s := run flushStep { resp := r } ops
    s.out <+: head r ++ body.take r.remainSendLen ∧
      (s.resp.finished = true → s.out = head r ++ body.take r.remainSendLen) ∧
      Guarded flushStep SafeCall { resp := r } ops := by
  have hclean := prepareResponse_clean (clean_reset r₀) hr
  have hstart : Inv r body { resp := r } :=
    ⟨List.nil_prefix, .inl ⟨.prepare rfl hclean rfl rfl,
      .prepare hclean.status (prepareResponse_wbufPos rfl hr)⟩⟩
  have hstep : ∀ s o, Inv r body s → Supplied body s o → Inv r body (flushStep s o) :=
    fun s o hinv hop => (flush_step hhead hcode hinv hop).2
  have hsafe : ∀ s o, Inv r body s → Supplied body s o → SafeCall s o :=
    fun s o hinv hop => (flush_step hhead hcode hinv hop).1
  obtain ⟨hpre, hall⟩ := (run_inv (Inv r body) hstep hstart hops).out_le
  exact ⟨hpre, hall, guarded_of_inv (Inv r body) hstep hsafe hstart hops⟩

/-- A response with a body of five bytes, and the calls that send it: the header in two writes, and
then two parts of the body. -/
def hello : HTTPResponse :=
  { remainSendLen := 5, finished := false, headers := [(bytes "Content-Length", bytes "5")] }

def helloCalls : List Out :=
  [⟨.wrote 9, none, .again⟩, ⟨.wrote 99, some (bytes "hel"), .wrote 0⟩, ⟨.again, none, .wrote 9⟩,
    ⟨.again, some (bytes "lo"), .wrote 1⟩, ⟨.again, none, .again⟩]

theorem flush_in_order_hello :
    (run flushStep { resp := hello } helloCalls).resp.finished = true ∧
      (run flushStep { resp := hello } helloCalls).out =
        head hello ++ (bytes "hello").take hello.remainSendLen :=
  have hdone : (run flushStep { resp := hello } helloCalls).resp.finished = true := by decide +kernel
  have hhello : prepareResponse ({} : HTTPResponse).reset
      [.setStatusCode 200, .setContentLength 5] = some hello := by decide +kernel
  ⟨hdone, (flush_in_order hhello (by decide) (by decide +kernel) (bytes "hello")
    (by decide +kernel)).2.1 hdone⟩

end Pink.Http.Sending
