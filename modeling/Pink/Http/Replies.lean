import Pink.Http.Handlers

/-! # When a reply is complete

`SendReply` returns `kWriteAll` when `finished_` is set. It is cleared when the next request is
begun, and the interim reply 100 sets it in the middle of a request: from then on every `SendReply`
returns `kWriteAll`, also the first one of the final response, however little it writes
(`reply_cut_short`). As long as no interim reply is sent, the bytes written since `PrepareResponse`
are the header, followed by what the handler has filled in as far as it is not in the buffer
(`Sending`), so that `kWriteAll` means that all of it has been written (`reply_complete`). -/

namespace Pink.Http.Replies

open Pink.Redis.Wire Pink.Lib.Runs Pink.Http.Request Pink.Http.Conn
open Pink.Redis.Conn (WriteStatus)
open Pink.Server.Threads (ReadStatus)

/-- The header block of a response. -/
def head (r : HTTPResponse) : Bytes := (headTexts r).flatten

/-! ### The header -/

/-- What fits within the limit is printed without loss. -/
theorem serialize_eq {texts : List Bytes} {n m : ℕ} {w w' : Bytes} (hw : w.length = n)
    (hn : n ≤ kHTTPMaxHeader) (hm : m ≤ kHTTPMaxHeader) (h : serialize texts n w = some (m, w')) :
    w' = w ++ texts.flatten ∧ m = w'.length := by
  induction texts generalizing n w with
  | nil =>
    obtain ⟨rfl, rfl⟩ := Prod.mk.inj (Option.some.inj h)
    exact ⟨by simp, hw.symm⟩
  | cons text texts ih =>
    have hgrow : ∀ {texts : List Bytes} {n : ℕ} {w : Bytes}, serialize texts n w = some (m, w') →
        n ≤ m := by
      intro texts
      induction texts with
      | nil =>
        intro n w h
        exact (Prod.mk.inj (Option.some.inj h)).1.le
      | cons text texts ih =>
        intro n w h
        dsimp only [serialize] at h
        split_ifs at h
        all_goals exact (Nat.le_add_right _ _).trans (ih h)
    dsimp only [serialize] at h
    rw [if_pos hn] at h
    by_cases hend : 2 ^ 31 ≤ text.length ∨ n + text.length = kHTTPMaxHeader
    · rw [if_pos hend] at h
      simp at h
    · rw [if_neg hend] at h
      have hle := hgrow h
      obtain ⟨-, hne⟩ := not_or.mp hend
      have hprint : snprintfAt w n (kHTTPMaxHeader - n) text = w ++ text := by
        rw [snprintfAt, hw, Nat.sub_self, List.take_of_length_le (by omega)]
        simp
      rw [hprint] at h
      obtain ⟨h1, h2⟩ := ih (by simp [hw]) (by omega) h
      exact ⟨by rw [h1]; simp, h2⟩

theorem serializeHeader_eq {r : HTTPResponse} {bs : Bytes} (h : serializeHeader r = some bs) :
    bs = head r := by
  unfold serializeHeader at h
  cases hs : serialize (headTexts r) 0 [] with
  | none => simp [hs] at h
  | some y =>
    obtain ⟨m, w⟩ := y
    simp only [hs] at h
    split_ifs at h with hm
    obtain ⟨rfl, hlen⟩ := serialize_eq List.length_nil (Nat.zero_le _) (not_lt.mp hm) hs
    rw [← Option.some.inj h, hlen, List.take_length]
    rfl

/-! ### Sending a response -/

/-- A response of which nothing has been sent. -/
structure Clean (r : HTTPResponse) : Prop where
  status : r.respStatus = .prepareHeader
  pending : r.pending = []
  finished : r.finished = false

/-- How far the response `p` has been sent: `out` has been written, `filled` is what the handler has
filled in of the body, and the bytes in the buffer come next. -/
inductive Sending (p r : HTTPResponse) (out filled : Bytes) : Prop
  | prepare (hr : r = p) (hclean : Clean p) (hout : out = []) (hfilled : filled = [])
  | header (hstatus : r.respStatus = .sendingHeader) (hfin : r.finished = false)
      (hcode : r.statusCode = p.statusCode) (hremain : r.remainSendLen = p.remainSendLen)
      (hout : out ++ r.pending = head p) (hfilled : filled = [])
  | body (hstatus : r.respStatus = .sendingBody) (hfin : r.finished = false)
      (hcode : r.statusCode = p.statusCode) (hout : out ++ r.pending = head p ++ filled)
      (hlen : filled.length + r.remainSendLen = p.remainSendLen + r.pending.length)
      (hpending : r.pending.length ≤ r.remainSendLen)

/-- The response `p` has been written: its header, and as many bytes of a body as it was given a
length. -/
def Complete (p : HTTPResponse) (out filled : Bytes) : Prop :=
  out = head p ++ filled ∧ filled.length = p.remainSendLen

instance (p : HTTPResponse) (out filled : Bytes) : Decidable (Complete p out filled) := by
  unfold Complete; infer_instance

/-- The same during a call of `Flush`. -/
def Going (p : HTTPResponse) (out filled : Bytes) (x : Flushing) : Prop :=
  Sending p x.resp (out ++ x.out) (filled ++ x.filled)

section Flush

variable {p : HTTPResponse} {out filled : Bytes} {x x' : Flushing}

theorem Sending.notFinished {r : HTTPResponse} (h : Sending p r out filled) :
    r.finished = false := by
  cases h with
  | prepare hr hclean => rw [hr]; exact hclean.finished
  | header _ hfin => exact hfin
  | body _ hfin => exact hfin

theorem Sending.code {r : HTTPResponse} (h : Sending p r out filled) :
    r.statusCode = p.statusCode := by
  cases h with
  | prepare hr => rw [hr]
  | header _ _ hcode => exact hcode
  | body _ _ hcode => exact hcode

/-- The status tells how far a response has been sent. -/
theorem Sending.of_prepareHeader {r : HTTPResponse} (h : Sending p r out filled)
    (hst : r.respStatus = .prepareHeader) : r = p ∧ Clean p ∧ out = [] ∧ filled = [] := by
  cases h with
  | prepare hr hclean hout hfilled => exact ⟨hr, hclean, hout, hfilled⟩
  | header hstatus => simp [hst] at hstatus
  | body hstatus => simp [hst] at hstatus

theorem Sending.of_sendingHeader {r : HTTPResponse} (h : Sending p r out filled)
    (hst : r.respStatus = .sendingHeader) :
    r.finished = false ∧ r.statusCode = p.statusCode ∧ r.remainSendLen = p.remainSendLen ∧
      out ++ r.pending = head p ∧ filled = [] := by
  cases h with
  | prepare hr hclean => rw [hr, hclean.status] at hst; simp at hst
  | header _ hfin hcode hremain hout hfilled => exact ⟨hfin, hcode, hremain, hout, hfilled⟩
  | body hstatus => simp [hst] at hstatus

theorem Sending.of_sendingBody {r : HTTPResponse} (h : Sending p r out filled)
    (hst : r.respStatus = .sendingBody) :
    r.finished = false ∧ r.statusCode = p.statusCode ∧ out ++ r.pending = head p ++ filled ∧
      filled.length + r.remainSendLen = p.remainSendLen + r.pending.length ∧
      r.pending.length ≤ r.remainSendLen := by
  cases h with
  | prepare hr hclean => rw [hr, hclean.status] at hst; simp at hst
  | header hstatus => simp [hst] at hstatus
  | body _ hfin hcode hout hlen hpending => exact ⟨hfin, hcode, hout, hlen, hpending⟩

theorem prepareHeader_going (h : Going p out filled x) (hn : prepareHeader x = .next x') :
    Going p out filled x' := by
  unfold prepareHeader at hn
  split_ifs at hn with hst
  · cases hs : serializeHeader x.resp with
    | none => simp [hs] at hn
    | some bs =>
      simp only [hs, Flushed.next.injEq] at hn
      subst hn
      obtain ⟨hr, hclean, hout, hfilled⟩ := Sending.of_prepareHeader h hst
      refine .header rfl (by rw [hr]; exact hclean.finished) (by rw [hr]) (by rw [hr]) ?_ hfilled
      rw [hout, List.nil_append, ← hr]
      exact serializeHeader_eq hs
  · obtain rfl := Flushed.next.inj hn
    exact h

theorem sendHeader_next {w : Written} (hp : p.statusCode ≠ 100) (h : Going p out filled x)
    (hn : sendHeader x w = .next x') : Going p out filled x' := by
  unfold sendHeader at hn
  by_cases hst : x.resp.respStatus = .sendingHeader
  · simp only [hst, if_true] at hn
    obtain ⟨hfin, hcode, hremain, hout, hfilled⟩ := Sending.of_sendingHeader h hst
    cases w with
    | again => simp at hn
    | failed => simp at hn
    | wrote k =>
      dsimp only at hn
      set n := min (k + 1) x.resp.pending.length with hn'
      by_cases hall : n = x.resp.pending.length
      · rw [if_pos hall, if_neg (by rw [hcode]; exact hp)] at hn
        obtain rfl := Flushed.next.inj hn
        refine .body rfl hfin hcode ?_ ?_ (Nat.zero_le _)
        · simp only [List.append_nil]
          rw [hfilled, hall, List.take_length, ← List.append_assoc, hout, List.append_nil]
        · simp [hfilled, hremain]
      · rw [if_neg hall] at hn
        obtain rfl := Flushed.next.inj hn
        refine .header rfl hfin hcode hremain ?_ hfilled
        rw [List.append_assoc, List.append_assoc, List.take_append_drop, ← List.append_assoc]
        exact hout
  · rw [if_neg hst] at hn
    obtain rfl := Flushed.next.inj hn
    exact h

theorem sendHeader_ret {w : Written} (hp : p.statusCode ≠ 100) (h : Going p out filled x)
    (hn : sendHeader x w = .ret x' true) : Going p out filled x' := by
  unfold sendHeader at hn
  by_cases hst : x.resp.respStatus = .sendingHeader
  · simp only [hst, if_true] at hn
    cases w with
    | again =>
      obtain ⟨rfl, -⟩ := Flushed.ret.inj hn
      exact h
    | failed => simp at hn
    | wrote k =>
      have h100 : ¬x.resp.statusCode = 100 := by rw [Sending.code h]; exact hp
      dsimp only at hn
      split_ifs at hn
  · rw [if_neg hst] at hn
    simp at hn

theorem fillBody_going {fill : Option Bytes} (hst : x.resp.respStatus = .sendingBody)
    (h : Going p out filled x) (hn : fillBody x fill = some (x', true)) :
    Going p out filled x' ∧ x'.resp.respStatus = .sendingBody := by
  unfold fillBody at hn
  by_cases hempty : x.resp.pending = []
  · simp only [hempty, if_true] at hn
    cases fill with
    | none => simp at hn
    | some bs =>
      dsimp only at hn
      split_ifs at hn with hroom
      obtain ⟨rfl, -⟩ := Prod.mk.inj (Option.some.inj hn)
      obtain ⟨hfin, hcode, hout, hlen, hpending⟩ := Sending.of_sendingBody h hst
      refine ⟨.body hst hfin hcode ?_ ?_ ?_, hst⟩
      · rw [hempty, List.append_nil] at hout
        rw [hout, List.append_assoc, List.append_assoc]
      · rw [hempty] at hlen
        simp only [List.length_append, List.length_nil] at hlen ⊢
        omega
      · show bs.length ≤ x.resp.remainSendLen
        omega
  · simp only [hempty, if_false] at hn
    obtain ⟨rfl, -⟩ := Prod.mk.inj (Option.some.inj hn)
    exact ⟨h, hst⟩

theorem sendChunk_going {w : Written} (hst : x.resp.respStatus = .sendingBody)
    (h : Going p out filled x) (hn : sendChunk x w = (x', true)) : Going p out filled x' := by
  unfold sendChunk at hn
  by_cases hempty : x.resp.pending = []
  · simp [hempty] at hn
  · simp only [hempty, if_false] at hn
    cases w with
    | again =>
      obtain ⟨rfl, -⟩ := Prod.mk.inj hn
      exact h
    | failed => simp at hn
    | wrote k =>
      dsimp only at hn
      obtain ⟨rfl, -⟩ := Prod.mk.inj hn
      obtain ⟨hfin, hcode, hout, hlen, hpending⟩ := Sending.of_sendingBody h hst
      have hle : min (k + 1) x.resp.pending.length ≤ x.resp.remainSendLen := by omega
      refine .body hst hfin hcode ?_ ?_ ?_
      · rw [List.append_assoc, List.append_assoc, List.take_append_drop, ← List.append_assoc]
        exact hout
      · show (filled ++ x.filled).length + subSize x.resp.remainSendLen _ =
          _ + (List.drop _ _).length
        rw [subSize_of_le hle, List.length_drop]
        omega
      · show (List.drop _ _).length ≤ subSize x.resp.remainSendLen _
        rw [subSize_of_le hle, List.length_drop]
        omega

theorem sendBody_going {fill : Option Bytes} {w : Written} (h : Going p out filled x)
    (hn : sendBody x fill w = some (x', true)) :
    Going p out filled x' ∨
      (x'.resp.finished = true ∧
        Complete p (out ++ x'.out) (filled ++ x'.filled)) := by
  unfold sendBody at hn
  by_cases hst : x.resp.respStatus = .sendingBody
  · simp only [hst, if_true] at hn
    by_cases hzero : x.resp.remainSendLen = 0
    · -- nothing is left to send: the buffer is empty too
      simp only [hzero, if_true] at hn
      obtain ⟨rfl, -⟩ := Prod.mk.inj (Option.some.inj hn)
      obtain ⟨hfin, hcode, hout, hlen, hpending⟩ := Sending.of_sendingBody h hst
      have hnil : x.resp.pending = [] := List.length_eq_zero_iff.mp (by omega)
      rw [hnil, List.append_nil] at hout
      rw [hnil, List.length_nil, hzero] at hlen
      exact .inr ⟨rfl, hout, hlen⟩
    · simp only [hzero, if_false] at hn
      cases hf : fillBody x fill with
      | none => simp [hf] at hn
      | some y =>
        obtain ⟨x₁, ok⟩ := y
        rw [hf] at hn
        cases ok with
        | false => simp at hn
        | true =>
          obtain ⟨h₁, hst₁⟩ := fillBody_going hst h hf
          exact .inl (sendChunk_going hst₁ h₁ (Option.some.inj hn))
  · simp only [hst, if_false] at hn
    obtain ⟨rfl, -⟩ := Prod.mk.inj (Option.some.inj hn)
    exact .inl h

/-- **One call of `Flush`**: the response is sent further, or it is complete. -/
theorem flush_sending {r : HTTPResponse} {o : Out} (hp : p.statusCode ≠ 100)
    (h : Sending p r out filled) (hf : flush r o = some (x, true)) :
    Sending p x.resp (out ++ x.out) (filled ++ x.filled) ∨
      (x.resp.finished = true ∧
        Complete p (out ++ x.out) (filled ++ x.filled)) := by
  have h₀ : Going p out filled { resp := r } := by
    show Sending p r (out ++ []) (filled ++ [])
    rw [List.append_nil, List.append_nil]
    exact h
  unfold flush at hf
  cases hprep : prepareHeader { resp := r } with
  | ret y ok =>
    simp only [hprep, Option.some.injEq, Prod.mk.injEq] at hf
    unfold prepareHeader at hprep
    split_ifs at hprep with hst
    cases hs : serializeHeader r with
    | none =>
      simp only [hs, Flushed.ret.injEq] at hprep
      simp [← hprep.2] at hf
    | some bs => simp [hs] at hprep
  | next y =>
    have h₁ := prepareHeader_going h₀ hprep
    rw [hprep] at hf
    dsimp only at hf
    cases hsend : sendHeader y o.header with
    | ret z ok =>
      simp only [hsend, Option.some.injEq, Prod.mk.injEq] at hf
      obtain ⟨rfl, rfl⟩ := hf
      exact .inl (sendHeader_ret hp h₁ hsend)
    | next z =>
      rw [hsend] at hf
      exact sendBody_going (sendHeader_next hp h₁ hsend) hf

end Flush

/-! ### Reading a request -/

/-- While a request is read, nothing is sent of the response; its status code is still the one of
`Reset`, or that of the interim reply. -/
structure Receiving (code : ℕ) (x : Reading) : Prop where
  clean : Clean x.response
  prepared : x.prepared = false
  code : x.response.statusCode = code ∨ x.response.statusCode = 100
  status : x.request.reqStatus ≠ .newRequest

/-- How a call of `ReadData` leaves the response. -/
inductive Left (code : ℕ) (x : Reading) (st : Option ReadStatus) : Prop
  /-- The handler has prepared the final response. -/
  | final (hst : st = some .readAll) (hprep : x.prepared = true) (hclean : Clean x.response)
      (hreq : x.request.reqStatus = .newRequest)
  /-- The request is not complete; `kReadAll` asks for the interim reply. -/
  | interim (h : Receiving code x) (hst : st = some .readAll → x.response.statusCode = 100)
  /-- The connection is closed. -/
  | gone (hst : goesOn st = false)

/-- What a turn of the loop leads to. -/
abbrev TurnLeft (code : ℕ) : Turn → Prop := Turn.Holds (Receiving code) (Left code)

theorem clean_reset (r : HTTPResponse) : Clean r.reset := ⟨rfl, rfl, rfl⟩

theorem prepareResponse_clean {ss : List Setter} {r r' : HTTPResponse} (h : Clean r)
    (hs : prepareResponse r ss = some r') : Clean r' := by
  induction ss generalizing r with
  | nil =>
    obtain rfl := Option.some.inj hs
    exact h
  | cons s ss ih =>
    obtain ⟨r₁, h₁, h₂⟩ := Option.bind_eq_some_iff.mp hs
    refine ih ?_ h₂
    cases s with
    | reset =>
      obtain rfl := Option.some.inj h₁
      exact clean_reset r
    | setStatusCode code =>
      dsimp only [HTTPResponse.set] at h₁
      split_ifs at h₁
      obtain rfl := Option.some.inj h₁
      exact ⟨h.status, h.pending, h.finished⟩
    | setHeaders key value =>
      obtain rfl := Option.some.inj h₁
      exact ⟨h.status, h.pending, h.finished⟩
    | setHeadersNum key value =>
      obtain rfl := Option.some.inj h₁
      exact ⟨h.status, h.pending, h.finished⟩
    | setContentLength size =>
      dsimp only [HTTPResponse.set] at h₁
      split_ifs at h₁
      all_goals
        obtain rfl := Option.some.inj h₁
        exact ⟨h.status, h.pending, h.finished⟩

variable {stringToLower : Bytes → Bytes}

theorem headerParsed_left {code : ℕ} {x : Reading} {needReply : Bool} {headerLen : ℕ}
    (h : Receiving code x) : TurnLeft code (headerParsed x needReply headerLen) := by
  unfold headerParsed
  dsimp only [Reading.emit]
  split_ifs
  · exact ⟨h.clean, h.prepared, h.code, by simp⟩
  · refine .interim ⟨⟨h.clean.status, h.clean.pending, h.clean.finished⟩, h.prepared, .inr rfl,
      by simp⟩ fun _ => rfl
  · exact ⟨h.clean, h.prepared, h.code, by simp⟩
  · exact ⟨h.clean, h.prepared, h.code, by simp⟩

theorem headerTurn_left {code : ℕ} {x : Reading} {needReply : Bool} (h : Receiving code x) :
    TurnLeft code (headerTurn stringToLower x needReply) := by
  have hr : ∀ r, SameBuffer x.request r → Receiving code (x.scanned r) := fun r hsame =>
    ⟨h.clean, h.prepared, h.code, by rw [hsame.2]; exact h.status⟩
  exact headerTurn_rule (fun r _ => .gone rfl) (fun r _ => .gone rfl)
    (fun r hsame _ _ => hr r hsame) fun r len hsame _ => headerParsed_left (hr r hsame)

theorem bodyTurn_left {code : ℕ} {x : Reading} (h : Receiving code x) :
    TurnLeft code (bodyTurn x) := by
  unfold bodyTurn
  dsimp only [Reading.emit]
  split_ifs
  · exact ⟨h.clean, h.prepared, h.code, by simp⟩
  · exact ⟨h.clean, h.prepared, h.code, by simp⟩
  · exact ⟨h.clean, h.prepared, h.code, h.status⟩
  · exact h

theorem receivedTurn_left {code : ℕ} {x : Reading} {prepare : List Setter}
    (h : Receiving code x) : TurnLeft code (receivedTurn x prepare) := by
  unfold receivedTurn
  dsimp only [Reading.emit]
  cases hp : prepareResponse x.response prepare with
  | none => exact .gone rfl
  | some resp => exact .final rfl rfl (prepareResponse_clean h.clean hp) rfl

theorem readThen_left {code : ℕ} {security : Bool} {turn : Reading → Turn} {x : Reading} {r : Recv}
    {t : Turn} (h : Receiving code x) (hturn : ∀ x', Receiving code x' → TurnLeft code (turn x'))
    (ht : readThen security turn x r = some t) : TurnLeft code t := by
  unfold readThen at ht
  cases hd : doRead security x r with
  | none => simp [hd] at ht
  | some y =>
    obtain ⟨x', st⟩ := y
    rw [hd] at ht
    rcases doRead_cases hd with ⟨-, rfl, rfl⟩ | ⟨-, rfl, rfl⟩ | ⟨-, rfl, hsame⟩
    · obtain rfl := Option.some.inj ht
      exact .interim ⟨h.clean, h.prepared, h.code, h.status⟩ (by simp)
    · obtain rfl := Option.some.inj ht
      exact .gone rfl
    · obtain rfl := Option.some.inj ht
      refine hturn x' ⟨?_, ?_, ?_, ?_⟩
      · rw [hsame.response]; exact h.clean
      · rw [hsame.prepared]; exact h.prepared
      · rw [hsame.response]; exact h.code
      · rw [hsame.status]; exact h.status

theorem readLoop_left {code : ℕ} {security : Bool} {e : Env} {rs : List Recv} {x x' : Reading}
    {st : Option ReadStatus} (h : Receiving code x)
    (hl : readLoop stringToLower security e rs x = some (x', st)) : Left code x' st := by
  refine readLoop_rule (P := Receiving code) (A := fun _ => True) ?_ ?_ ?_ (by simp) h hl
  · intro x r t _ hx _ ht
    exact readThen_left hx (fun y hy => headerTurn_left hy) ht
  · intro x r t _ hx _ ht
    exact readThen_left hx (fun y hy => bodyTurn_left hy) ht
  · intro x hx _
    exact receivedTurn_left hx

/-! ### The life of a connection -/

/-- While a request is read, the response is clean, and a reply can only be an interim one; after
it, a reply is the final response, sent as far as recorded, unless its status code is 100. -/
structure Inv (c : HTTPConn) : Prop where
  reading : c.request.reqStatus ≠ .newRequest →
    Clean c.response ∧ (c.isReply → c.response.statusCode = 100)
  replying : c.request.reqStatus = .newRequest → c.isReply → c.response.statusCode ≠ 100 →
    c.prepared.statusCode = c.response.statusCode ∧ Sending c.prepared c.response c.out c.filled
  waiting : c.request.reqStatus = .newRequest → c.isReply → c.response.finished = false

/-- `ReadData` as a whole: it does nothing while a reply is being sent. -/
theorem readData_left {security : Bool} {c : HTTPConn} {e : Env} {x : Reading}
    {st : Option ReadStatus} (hinv : Inv c)
    (h : readData stringToLower security c e = some (x, st)) :
    (∃ code, Left code x st ∧ (c.isReply → code = 100)) ∨
      (st = some .readHalf ∧ c.request.reqStatus = .newRequest ∧ x.request.reqStatus = .newRequest ∧
        x.response = c.response ∧ x.prepared = false) := by
  unfold readData at h
  by_cases hnew : c.request.reqStatus = .newRequest
  · rw [if_pos hnew] at h
    dsimp only at h
    by_cases hfin : c.response.finished
    · rw [if_pos hfin] at h
      refine .inl ⟨200, readLoop_left ⟨clean_reset c.response, rfl, .inl rfl, by simp⟩ h, fun hr => ?_⟩
      have := hinv.waiting hnew hr
      simp [hfin] at this
    · rw [if_neg hfin] at h
      split_ifs at h
      obtain ⟨rfl, rfl⟩ := Prod.mk.inj (Option.some.inj h)
      exact .inr ⟨rfl, hnew, hnew, rfl, rfl⟩
  · rw [if_neg hnew] at h
    obtain ⟨hclean, hcode⟩ := hinv.reading hnew
    exact .inl ⟨c.response.statusCode, readLoop_left ⟨hclean, rfl, .inl rfl, hnew⟩ h, hcode⟩

theorem getRequest_inv {security : Bool} {c c' : HTTPConn} {e : Env} (hinv : Inv c)
    (h : getRequest stringToLower security c e = some c') (halive : c'.alive) : Inv c' := by
  obtain ⟨⟨x, st⟩, hread, rfl⟩ := Option.map_eq_some_iff.mp h
  dsimp only at halive ⊢
  have hgoes : goesOn st := by
    split_ifs at halive
    all_goals
      have hmem : (st, x.events) ∈ c.calls ++ [(st, x.events)] := by simp
      exact HTTPConn.goesOn_of_alive halive hmem
  rcases readData_left hinv hread with ⟨code, hleft, hcode⟩ | ⟨rfl, hnew, hnew', hresp, hprep⟩
  · cases hleft with
    | final hst hprep hclean hreq =>
      rw [if_pos hprep]
      refine ⟨fun hne => absurd hreq hne, fun _ _ _ => ⟨rfl, ?_⟩, fun _ _ => hclean.finished⟩
      exact .prepare rfl hclean rfl rfl
    | interim hr hst =>
      rw [if_neg (by rw [hr.prepared]; simp)]
      refine ⟨fun _ => ⟨hr.clean, fun hreply => ?_⟩, fun hne => absurd hne hr.status,
        fun hne => absurd hne hr.status⟩
      rcases (Bool.or_eq_true _ _).mp hreply with hreply | hreply
      · rcases hr.code with h | h
        · exact h.trans (hcode hreply)
        · exact h
      · exact hst (of_decide_eq_true hreply)
    | gone hst => simp [hst] at hgoes
  · rw [if_neg (by rw [hprep]; simp)]
    simp only [hresp, reduceCtorEq, Option.some.injEq, decide_false, Bool.or_false]
    exact ⟨fun hne => absurd hnew' hne, fun _ => hinv.replying hnew, fun _ => hinv.waiting hnew⟩

/-- A call of `SendReply` for a final response: `kWriteAll` means that it is complete. -/
theorem sendReply_inv {c c' : HTTPConn} {o : Out} (hinv : Inv c) (hreply : c.isReply)
    (hcode : c.response.statusCode ≠ 100) (h : sendReply c o = some c') :
    (c'.alive → Inv c') ∧ (∀ code, c'.replies.getLast? = some (.writeAll, code) →
      Complete c'.prepared c'.out c'.filled) := by
  have hnew : c.request.reqStatus = .newRequest := by
    by_contra hne
    exact hcode ((hinv.reading hne).2 hreply)
  obtain ⟨hprep, hsending⟩ := hinv.replying hnew hreply hcode
  obtain ⟨⟨x, ok⟩, hflush, rfl⟩ := Option.map_eq_some_iff.mp h
  cases ok with
  | false =>
    constructor
    · intro halive
      simp [HTTPConn.alive] at halive
    · intro code hlast
      simp at hlast
  | true =>
    rcases flush_sending (by rw [hprep]; exact hcode) hsending hflush with hgo | ⟨hfin, hcomplete⟩
    · have hfin := hgo.notFinished
      simp only [hfin, if_true, Bool.false_eq_true, if_false]
      refine ⟨fun _ => ⟨fun hne => absurd hnew hne, fun _ _ _ => ⟨hgo.code.symm, hgo⟩,
        fun _ _ => hfin⟩, fun code hlast => ?_⟩
      simp at hlast
    · simp only [hfin, if_true]
      refine ⟨fun _ => ⟨fun hne => absurd hnew hne, fun _ hr => ?_, fun _ hr => ?_⟩,
        fun _ _ => hcomplete⟩
      · simp at hr
      · simp at hr

/-- The event does not send the interim reply 100. -/
def NoInterim (c : HTTPConn) : Op → Prop
  | .getRequest _ => True
  | .sendReply _ => c.response.statusCode ≠ 100

instance (c : HTTPConn) : ∀ op, Decidable (NoInterim c op)
  | .getRequest _ => .isTrue trivial
  | .sendReply _ => inferInstanceAs (Decidable (_ ≠ _))

theorem step_inv {security : Bool} {c : HTTPConn} {op : Op} (hop : NoInterim c op)
    (hinv : c.alive → Inv c) :
    (step stringToLower security c op).alive → Inv (step stringToLower security c op) := by
  unfold step
  cases hs : stepOption stringToLower security c op with
  | none => exact hinv
  | some c' =>
    cases op with
    | getRequest e =>
      obtain ⟨halive, hget⟩ := stepOption_getRequest.mp hs
      exact getRequest_inv (hinv halive) hget
    | sendReply o =>
      obtain ⟨⟨halive, hreply⟩, hsend⟩ := stepOption_sendReply.mp hs
      exact (sendReply_inv (hinv halive) hreply hop hsend).1

/-- **`SendReply` reports completion truthfully** in a state: if it returns `kWriteAll` for a final
response, then the header of the response and as many bytes of its body as `SetContentLength` said
have been written. -/
def Truthful (c : HTTPConn) : Prop :=
  ∀ o c', c.alive → c.isReply → sendReply c o = some c' →
    ∀ code, code ≠ 100 → c'.replies.getLast? = some (.writeAll, code) →
      Complete c'.prepared c'.out c'.filled

/-- **A reply is complete when `SendReply` says so**, in every run in which no interim reply is
sent. -/
theorem reply_complete (stringToLower : Bytes → Bytes) (security : Bool) (ops : List Op)
    (hops : Guarded (step stringToLower security) NoInterim {} ops) :
    Truthful (run (step stringToLower security) {} ops) := by
  have hstep : ∀ c op, (c.alive → Inv c) → NoInterim c op →
      (step stringToLower security c op).alive → Inv (step stringToLower security c op) :=
    fun c op hc hop => step_inv hop hc
  have h := run_inv (fun c : HTTPConn => c.alive → Inv c) hstep
    (fun _ => ⟨fun hne => absurd rfl hne, fun _ hr => by simp at hr, fun _ hr => by simp at hr⟩) hops
  intro o c' halive hreply hsend code hcode hlast
  have hstatus : code = (run (step stringToLower security) {} ops).response.statusCode := by
    obtain ⟨y, -, rfl⟩ := Option.map_eq_some_iff.mp hsend
    simp only [List.getLast?_concat, Option.some.injEq, Prod.mk.injEq] at hlast
    exact hlast.2.symm
  exact (sendReply_inv (h halive) hreply (hstatus ▸ hcode) hsend).2 code hlast

open Pink.Http.Handlers (asciiLower wholeRequest Happens)

/-- A request, its response of five bytes, and a first `SendReply` that writes part of the header. -/
def plainRun : List Op :=
  [.getRequest ⟨[.data wholeRequest], false, [.setStatusCode 200, .setContentLength 5]⟩,
    .sendReply ⟨.wrote 10, none, .again⟩]

theorem reply_complete_plain : Truthful (run (step asciiLower false) {} plainRun) :=
  reply_complete asciiLower false plainRun (by decide +kernel)

/-- A request that is answered with 100, then with 200 and a body of five bytes. -/
def interimRun : List Op :=
  [.getRequest
      ⟨[.data (bytes "PUT /a HTTP/1.1\r\nContent-Length: 2\r\nExpect: 100-continue\r\n\r\n")],
        false, []⟩,
    .sendReply ⟨.wrote 99, none, .again⟩,
    .getRequest ⟨[.data (bytes "hi")], false, [.setStatusCode 200, .setContentLength 5]⟩]

/-- The first `SendReply` of the final response returns `kWriteAll` after one byte. -/
theorem reply_cut_short :
    Guarded (step asciiLower false) (Happens asciiLower false) {} interimRun ∧
      ¬Truthful (run (step asciiLower false) {} interimRun) := by
  refine ⟨by decide +kernel, fun h => ?_⟩
  have hsend : (sendReply (run (step asciiLower false) {} interimRun) ⟨.wrote 0, none, .again⟩).any
      (fun c' => c'.replies.getLast? = some (.writeAll, 200) ∧
        ¬Complete c'.prepared c'.out c'.filled) := by decide +kernel
  obtain ⟨c', hc', hbad⟩ := (Option.any_eq_true _ _).mp hsend
  obtain ⟨hlast, hnot⟩ := of_decide_eq_true hbad
  exact hnot (h _ c' (by decide +kernel) (by decide +kernel) hc' 200 (by decide) hlast)

end Pink.Http.Replies
