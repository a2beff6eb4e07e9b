import Pink.Http.Delivery

/-! # The counter of the body

`remain_recv_len_` is decreased in two places: by what a read brings in `DoRead` while the body is
received, and in `ReadData` by what has come behind the header block when it is complete. The reads
ask for as much as there is room for, so nothing but the peer keeps the bytes from being more than are
announced. The subtractions of a call are listed by `subtracted`, and they are all exact precisely if
the bytes of the request do not go beyond the body that it announces, unless the call does not come to
a subtraction: when `HandleRequest` asks for a reply, or the read that completes the header is refused
for its size (`counter_iff`). -/

namespace Pink.Http.Counter

open Pink.Redis.Wire Pink.Http.Request Pink.Http.Conn Pink.Http.Heads Pink.Http.Delivery
open Pink.Lib.Runs
open Pink.Http.Handlers (Happens asciiLower sendReply_calls)
open Pink.Server.Threads (ReadStatus)

variable (stringToLower : Bytes → Bytes)

/-! ### What is announced -/

/-- The call of `ParseHeader` when `got` has come of a request. -/
def parsed (got : Bytes) : HTTPRequest × Parsed :=
  parseHeader stringToLower { reqStatus := .headerReceiving, rbuf := got }

/-- The bytes begin with a header block of `len` bytes that announces a body of `n` bytes. -/
def Announces (got : Bytes) (len n : ℕ) : Prop :=
  ∃ r, parsed stringToLower got = (r, .header len) ∧ r.remainRecvLen = n

/-- The Content-Length that is known of a request of which `got` has come. -/
def announced (got : Bytes) : ℕ :=
  match parsed stringToLower got with
  | (r, .header _) => r.remainRecvLen
  | _ => 0

/-! ### The subtractions -/

/-- The subtractions that a read leads to: the counter before, and what is subtracted. -/
def readSubtracted (e : Env) (x : Reading) : Recv → List (ℕ × ℕ)
  | .data bs =>
    match x.request.reqStatus with
    | .bodyReceiving => [(x.request.remainRecvLen, bs.length)]
    | .headerReceiving =>
      match parseHeader stringToLower { x.request with rbuf := x.request.rbuf ++ bs } with
      | (r, .header headerLen) =>
        if kHTTPMaxHeader < r.rbuf.length ∨ e.needReply then []
        else [(r.remainRecvLen, r.rbuf.length - headerLen)]
      | _ => []
    | _ => []
  | _ => []

/-- The turn of the loop of `ReadData` that a read leads to. -/
def turnOf (security : Bool) (e : Env) (x : Reading) (r : Recv) : Option Turn :=
  match x.request.reqStatus with
  | .headerReceiving => readThen security (fun x => headerTurn stringToLower x e.needReply) x r
  | .bodyReceiving => readThen security bodyTurn x r
  | _ => none

/-- A read is made in one of two states. -/
theorem turnOf_eq_some {stringToLower : Bytes → Bytes} {security : Bool} {e : Env} {x : Reading}
    {r : Recv} {t : Turn} (ht : turnOf stringToLower security e x r = some t) :
    (x.request.reqStatus = .headerReceiving ∧
        readThen security (fun x => headerTurn stringToLower x e.needReply) x r = some t) ∨
      (x.request.reqStatus = .bodyReceiving ∧ readThen security bodyTurn x r = some t) := by
  unfold turnOf at ht
  cases hst : x.request.reqStatus with
  | newRequest => simp [hst] at ht
  | bodyReceived => simp [hst] at ht
  | headerReceiving => exact .inl ⟨rfl, by rwa [hst] at ht⟩
  | bodyReceiving => exact .inr ⟨rfl, by rwa [hst] at ht⟩

/-- The subtractions of the loop of `ReadData`. -/
def loopSubtracted (security : Bool) (e : Env) : List Recv → Reading → List (ℕ × ℕ)
  | [], _ => []
  | r :: rs, x =>
    readSubtracted stringToLower e x r ++
      match turnOf stringToLower security e x r with
      | some (.next x) => loopSubtracted security e rs x
      | _ => []

/-- Where `ReadData` enters its loop, if it does. -/
def entry (c : HTTPConn) : Option Reading :=
  if c.request.reqStatus = .newRequest then
    if c.response.finished then
      some { request := { reqStatus := .headerReceiving }, response := c.response.reset
             overflow := c.overflow }
    else none
  else some { request := c.request, response := c.response, overflow := c.overflow }

/-- The subtractions of an event. -/
def subtracted (security : Bool) (c : HTTPConn) : Op → List (ℕ × ℕ)
  | .getRequest e =>
    match entry c with
    | some x => loopSubtracted stringToLower security e e.reads x
    | none => []
  | .sendReply _ => []

/-! ### The run, with the bytes of the current request -/

structure Watched where
  conn : HTTPConn := {}
  /-- The bytes that have come since the current request began. -/
  got : Bytes := []

/-- The bytes of the current request before an event. -/
def Watched.before (w : Watched) : Bytes :=
  if w.conn.request.reqStatus = .newRequest then [] else w.got

/-- And after it. -/
def Watched.after (w : Watched) : Op → Bytes
  | .getRequest e => w.before ++ (pieces e.reads).flatten
  | .sendReply _ => w.got

def watch (security : Bool) (w : Watched) (op : Op) : Watched :=
  match stepOption stringToLower security w.conn op with
  | some c => ⟨c, w.after op⟩
  | none => w

/-- **The subtractions of an event are exact**, and after it the counter is at most what is
announced. -/
def Exact (security : Bool) (w : Watched) (op : Op) : Prop :=
  (Happens stringToLower security w.conn op →
    ∀ s ∈ subtracted stringToLower security w.conn op, s.2 ≤ s.1) ∧
  (watch stringToLower security w op).conn.request.remainRecvLen ≤
    announced stringToLower (watch stringToLower security w op).got

/-- The bytes of a request, `ds` being the last pieces and `n` bytes before them, do not go beyond the
body it announces, as far as it comes to a subtraction. -/
def Fits (e : Env) (st : RequestStatus) (n : ℕ) (ds : List Bytes) (got : Bytes) : Prop :=
  ∀ len m, Announces stringToLower got len m →
    (e.needReply = true ∧ st ≠ .bodyReceiving) ∨ ¬Small len n ds ∨ got.length ≤ len + m

/-- **An event brings no bytes behind the announced body.** -/
def Within (security : Bool) (w : Watched) : Op → Prop
  | .getRequest e =>
    Happens stringToLower security w.conn (.getRequest e) →
      Fits stringToLower e w.conn.request.reqStatus w.before.length (pieces e.reads)
        (w.after (.getRequest e))
  | .sendReply _ => True

variable {stringToLower}

/-! ### The parser and bytes behind the header block -/

theorem headChar_rbuf (x : Line) (b : UInt8) (buf : Bytes) :
    headChar stringToLower { x with req := { x.req with rbuf := buf } } b =
      { headChar stringToLower x b with
        req := { (headChar stringToLower x b).req with rbuf := buf } } := by
  unfold headChar
  dsimp only
  split <;> split_ifs <;> rfl

theorem parseHeadLine_rbuf (r : HTTPRequest) (line buf : Bytes) :
    parseHeadLine stringToLower { r with rbuf := buf } line =
      { parseHeadLine stringToLower r line with rbuf := buf } := by
  have hfold : ∀ (line : Bytes) (x : Line),
      line.foldl (headChar stringToLower) { x with req := { x.req with rbuf := buf } } =
        { line.foldl (headChar stringToLower) x with
          req := { (line.foldl (headChar stringToLower) x).req with rbuf := buf } } := by
    intro line
    induction line with
    | nil => exact fun x => rfl
    | cons b line ih =>
      intro x
      rw [List.foldl_cons, headChar_rbuf, ih]
      rfl
  exact congrArg Line.req (hfold line { req := r })

theorem parseLines_rbuf (fuel : ℕ) (r : HTTPRequest) (rest buf : Bytes) :
    parseLines stringToLower fuel { r with rbuf := buf } rest =
      { parseLines stringToLower fuel r rest with rbuf := buf } := by
  induction fuel generalizing r rest with
  | zero => rfl
  | succ fuel ih =>
    rw [parseLines, parseLines]
    split_ifs
    · rfl
    · dsimp only
      rw [parseHeadLine_rbuf, ih]

theorem parseGetUrl_rbuf (r : HTTPRequest) (buf : Bytes) :
    parseGetUrl { r with rbuf := buf } = { parseGetUrl r with rbuf := buf } := by
  have hpath : formatPath { r with rbuf := buf } = formatPath r := rfl
  unfold parseGetUrl
  dsimp only
  rw [hpath]
  split_ifs <;> rfl

/-- The C string of a buffer with more bytes behind it. -/
theorem cstr_more (p t : Bytes) :
    (cstr (p ++ t) = cstr p) ∨ (cstr p = p ∧ cstr (p ++ t) = p ++ cstr t) := by
  by_cases hmem : 0 ∈ p
  · left
    obtain ⟨a, b, rfl, ha⟩ := List.eq_append_cons_of_mem hmem
    rw [List.append_assoc, cstr_append ha, cstr_append ha]
    rfl
  · right
    exact ⟨cstr_eq_self hmem, cstr_append hmem t⟩

/-- The header block is found, and where. -/
theorem parsed_found {got : Bytes} {r : HTTPRequest} {len : ℕ}
    (h : parsed stringToLower got = (r, .header len)) :
    ∃ i, findSub separator (cstr got) = some i ∧ len = i + 4 ∧ len ≤ got.length := by
  unfold parsed parseHeader at h
  dsimp only at h
  rw [← separator] at h
  cases hfind : findSub separator (cstr got) with
  | none => simp [hfind] at h
  | some i =>
    rw [hfind] at h
    dsimp only at h
    have hle := findSub_le hfind
    have hcstr : (cstr got).length ≤ got.length := (List.takeWhile_prefix _).length_le
    split_ifs at h with hshort
    · simp at h
    · split at h
      · simp at h
      · obtain ⟨-, heq⟩ := Prod.mk.inj h
        obtain rfl : i + 4 = len := by simpa using heq
        refine ⟨i, rfl, rfl, ?_⟩
        have hfour : separator.length = 4 := rfl
        omega

/-- **Bytes behind the header block change nothing.** -/
theorem parsed_append {got : Bytes} {r : HTTPRequest} {len : ℕ}
    (h : parsed stringToLower got = (r, .header len)) (t : Bytes) :
    parsed stringToLower (got ++ t) = ({ r with rbuf := got ++ t }, .header len) := by
  obtain ⟨i, hfind, rfl, hle⟩ := parsed_found h
  have hfind' : findSub separator (cstr (got ++ t)) = some i := by
    rcases cstr_more got t with heq | ⟨hself, heq⟩
    · rw [heq, hfind]
    · rw [heq, ← hself]
      exact findSub_append hfind _
  have htake : (got ++ t).take (i + 4) = got.take (i + 4) := List.take_append_of_le_length hle
  have hnew : parseGetUrl (parseLines stringToLower (i + 4)
        { reqStatus := .headerReceiving, rbuf := got ++ t } ((got ++ t).take (i + 4))) =
      { parseGetUrl (parseLines stringToLower (i + 4)
          { reqStatus := .headerReceiving, rbuf := got } (got.take (i + 4))) with
        rbuf := got ++ t } := by
    rw [htake, ← parseGetUrl_rbuf, ← parseLines_rbuf]
  unfold parsed parseHeader at h ⊢
  dsimp only at h ⊢
  rw [← separator] at h ⊢
  rw [hfind] at h
  rw [hfind']
  dsimp only at h ⊢
  rw [hnew]
  generalize parseGetUrl (parseLines stringToLower (i + 4)
    { reqStatus := .headerReceiving, rbuf := got } (got.take (i + 4))) = r₀ at h ⊢
  split_ifs at h ⊢ with hshort
  · simp at h
  · dsimp only
    cases hlen : (lookup r₀.headers (bytes "content-length")).elim (some 0) stoul with
    | none =>
      rw [hlen] at h
      simp at h
    | some n =>
      rw [hlen] at h
      rw [← (Prod.mk.inj h).1]
      rfl

theorem Announces.append {got : Bytes} {len n : ℕ} (h : Announces stringToLower got len n)
    (t : Bytes) : Announces stringToLower (got ++ t) len n := by
  obtain ⟨r, hr, hn⟩ := h
  exact ⟨_, parsed_append hr t, hn⟩

theorem Announces.unique {got : Bytes} {len n len' n' : ℕ} (h : Announces stringToLower got len n)
    (h' : Announces stringToLower got len' n') : len' = len ∧ n' = n := by
  obtain ⟨r, hr, hn⟩ := h
  obtain ⟨r', hr', hn'⟩ := h'
  obtain ⟨rfl, heq⟩ := Prod.mk.inj (hr.symm.trans hr')
  exact ⟨(Parsed.header.inj heq).symm, hn'.symm.trans hn⟩

theorem Announces.announced_eq {got : Bytes} {len n : ℕ} (h : Announces stringToLower got len n) :
    announced stringToLower got = n := by
  obtain ⟨r, hr, hn⟩ := h
  rw [announced, hr]
  exact hn

theorem Announces.le {got : Bytes} {len n : ℕ} (h : Announces stringToLower got len n) :
    len ≤ got.length := by
  obtain ⟨r, hr, -⟩ := h
  obtain ⟨i, -, -, hle⟩ := parsed_found hr
  exact hle

/-- The request that has been parsed. -/
theorem Announces.request {got : Bytes} {len n : ℕ} (h : Announces stringToLower got len n) :
    ∃ r, parsed stringToLower got = (r, .header len) ∧ r.rbuf = got ∧ r.remainRecvLen = n := by
  obtain ⟨r, hr, hn⟩ := h
  have hsame : SameBuffer { reqStatus := .headerReceiving, rbuf := got } (parsed stringToLower got).1 :=
    parseHeader_same _
  rw [hr] at hsame
  exact ⟨r, hr, hsame.1, hn⟩

/-- A header block that is complete only with the last piece ends in it. -/
theorem Announces.lt_of_incomplete {p bs : Bytes} {len n : ℕ}
    (h : Announces stringToLower (p ++ bs) len n)
    (hinc : (parsed stringToLower p).2 = .incomplete) : p.length < len := by
  obtain ⟨r, hr, -⟩ := h
  obtain ⟨i, hfind, rfl, -⟩ := parsed_found hr
  have hnone : findSub separator (cstr p) = none := by
    cases hsome : findSub separator (cstr p) with
    | none => rfl
    | some j =>
      unfold parsed parseHeader at hinc
      dsimp only at hinc
      rw [← separator, hsome] at hinc
      dsimp only at hinc
      split_ifs at hinc
      split at hinc <;> simp at hinc
  by_contra hle
  rcases cstr_more p bs with heq | ⟨hself, heq⟩
  · rw [heq, hnone] at hfind
    simp at hfind
  · rw [heq] at hfind
    rw [hself] at hnone
    have hin : i + separator.length ≤ p.length := by
      have hfour : separator.length = 4 := rfl
      omega
    rw [findSub_of_append hfind hin] at hnone
    simp at hnone

theorem parseHeader_incomplete {r r' : HTTPRequest}
    (h : parseHeader stringToLower r = (r', .incomplete)) : r' = r := by
  unfold parseHeader at h
  dsimp only at h
  split at h
  · exact (Prod.mk.inj h).1.symm
  · split_ifs at h
    · simp at h
    · split at h <;> simp at h

/-- What no line of a head changes, the parser leaves alone. -/
theorem parseLines_keeps {α : Type*} (f : HTTPRequest → α)
    (hf : ∀ (x : Line) (b : UInt8), f (headChar stringToLower x b).req = f x.req) (fuel : ℕ)
    (r : HTTPRequest) (rest : Bytes) : f (parseLines stringToLower fuel r rest) = f r := by
  have hline : ∀ (line : Bytes) (x : Line),
      f (line.foldl (headChar stringToLower) x).req = f x.req := by
    intro line
    induction line with
    | nil => exact fun x => rfl
    | cons b line ih => exact fun x => (ih _).trans (hf x b)
  induction fuel generalizing r rest with
  | zero => rfl
  | succ fuel ih =>
    rw [parseLines]
    split_ifs
    · rfl
    · exact (ih _ _).trans (hline _ { req := r })

/-- After a call of `ParseHeader` the counter is what is announced. -/
theorem parsed_remain (got : Bytes) :
    (parsed stringToLower got).1.remainRecvLen = announced stringToLower got := by
  have hlines : ∀ (fuel : ℕ) (rest : Bytes), (parseGetUrl (parseLines stringToLower fuel
      { reqStatus := .headerReceiving, rbuf := got } rest)).remainRecvLen = 0 := by
    intro fuel rest
    have hurl : ∀ r, (parseGetUrl r).remainRecvLen = r.remainRecvLen := by
      intro r
      unfold parseGetUrl
      dsimp only
      split_ifs <;> rfl
    rw [hurl]
    refine parseLines_keeps HTTPRequest.remainRecvLen (fun x b => ?_) fuel _ rest
    unfold headChar
    dsimp only
    split <;> split_ifs <;> rfl
  unfold announced parsed parseHeader
  dsimp only
  cases findSub [CR, LF, CR, LF] (cstr got) with
  | none => rfl
  | some i =>
    dsimp only
    split_ifs
    · rfl
    · split
      · exact hlines _ _
      · rfl

/-! ### One turn -/

variable (stringToLower) in
/-- A request that is being received when `got` has come of it. -/
inductive Counting (got : Bytes) (r : HTTPRequest) : Prop
  | head (hr : r = { reqStatus := .headerReceiving, rbuf := got })
      (hinc : (parsed stringToLower got).2 = .incomplete)
  | body (len n : ℕ) (hann : Announces stringToLower got len n)
      (hst : r.reqStatus = .bodyReceiving) (hrem : r.remainRecvLen + got.length = len + n)

variable (stringToLower) in
/-- A request as a call leaves it. -/
structure Left (got : Bytes) (r : HTTPRequest) (st : Option ReadStatus) : Prop where
  remain : r.remainRecvLen ≤ announced stringToLower got
  open_ : goesOn st = true → r.reqStatus = .newRequest ∨ Counting stringToLower got r

/-- All subtractions of a list are exact. -/
def AllExact (l : List (ℕ × ℕ)) : Prop := ∀ s ∈ l, s.2 ≤ s.1

theorem small_of_le {len n : ℕ} (h : len ≤ n) (ds : List Bytes) : Small len n ds := by
  induction ds generalizing n with
  | nil => trivial
  | cons d ds ih => exact ⟨fun hlt => absurd hlt (not_lt.mpr h), ih (by omega)⟩

theorem fits_iff {e : Env} {st : RequestStatus} {k len n : ℕ} {ds : List Bytes} {got : Bytes}
    (hann : Announces stringToLower got len n) :
    Fits stringToLower e st k ds got ↔
      (e.needReply = true ∧ st ≠ .bodyReceiving) ∨ ¬Small len k ds ∨ got.length ≤ len + n := by
  refine ⟨fun h => h len n hann, fun h len' n' hann' => ?_⟩
  obtain ⟨rfl, rfl⟩ := hann.unique hann'
  exact h

/-- A read within the first `kHTTPMaxHeader` bytes is not refused. -/
theorem fits_cons {e : Env} {st : RequestStatus} {k : ℕ} {bs : Bytes} {ds : List Bytes} {got : Bytes}
    (h : k + bs.length ≤ kHTTPMaxHeader) :
    Fits stringToLower e st k (bs :: ds) got ↔
      Fits stringToLower e st (k + bs.length) ds got := by
  have hsmall : ∀ len, Small len k (bs :: ds) ↔ Small len (k + bs.length) ds :=
    fun len => and_iff_right fun _ => h
  simp only [Fits, hsmall]

theorem fits_of_not_header {e : Env} {st : RequestStatus} {k : ℕ} {ds : List Bytes} {got : Bytes}
    (h : ∀ len, (parsed stringToLower got).2 ≠ .header len) : Fits stringToLower e st k ds got := by
  rintro len n ⟨r, hr, -⟩
  exact absurd (congrArg Prod.snd hr) (h len)

/-- A parsed head when `HandleRequest` asks for no reply. -/
theorem headerParsed_remain (x : Reading) (len : ℕ) {m : ℕ}
    (hm : subSize x.request.remainRecvLen (x.request.rbuf.length - len) = m) :
    (headerParsed x false len).Holds
      (fun x' => x'.request.remainRecvLen = m ∧
        (x'.request.reqStatus = .bodyReceiving ∨ x'.request.reqStatus = .bodyReceived ∧ m = 0))
      fun x' _ => x'.request.remainRecvLen = m ∧ x'.request.reqStatus = .bodyReceiving := by
  unfold headerParsed
  dsimp only [Reading.emit]
  rw [if_neg (by simp), List.length_drop, hm]
  split_ifs with h100 hzero
  · exact ⟨rfl, rfl⟩
  · exact ⟨rfl, .inr ⟨rfl, hzero⟩⟩
  · exact ⟨rfl, .inl rfl⟩

theorem bodyTurn_remain (x : Reading) (hst : x.request.reqStatus = .bodyReceiving) :
    ∃ x', bodyTurn x = .next x' ∧ x'.request.remainRecvLen = x.request.remainRecvLen ∧
      (x'.request.reqStatus = .bodyReceiving ∨
        x'.request.reqStatus = .bodyReceived ∧ x.request.remainRecvLen = 0) := by
  unfold bodyTurn
  dsimp only
  by_cases hzero : x.request.remainRecvLen = 0
  · rw [if_pos hzero]
    refine ⟨_, rfl, ?_, .inr ⟨rfl, hzero⟩⟩
    split_ifs <;> rfl
  · rw [if_neg hzero]
    refine ⟨_, rfl, ?_, .inl ?_⟩ <;> split_ifs
    · rfl
    · rfl
    · exact hst
    · exact hst

section Turn

variable {security : Bool} {e : Env}

variable (stringToLower e) in
/-- What a turn does to the counter when `got` has come before its read: the read fits exactly if the
subtraction is exact, and then the counter is right afterwards. -/
def TurnCounts (got : Bytes) (x : Reading) (r : Recv) : Turn → Prop :=
  Turn.Holds
    (fun x' =>
      (AllExact (readSubtracted stringToLower e x r) →
        Counting stringToLower (got ++ (pieces [r]).flatten) x'.request ∨
          x'.request.reqStatus = .bodyReceived ∧
            x'.request.remainRecvLen ≤ announced stringToLower (got ++ (pieces [r]).flatten)) ∧
      ∀ rs, (x'.request.reqStatus = .bodyReceived → rs = []) →
        (Fits stringToLower e x.request.reqStatus got.length (pieces (r :: rs))
            (got ++ (pieces (r :: rs)).flatten) ↔
          AllExact (readSubtracted stringToLower e x r) ∧
            (x'.request.reqStatus = .bodyReceived ∨
              Fits stringToLower e x'.request.reqStatus (got ++ (pieces [r]).flatten).length
                (pieces rs) (got ++ (pieces [r]).flatten ++ (pieces rs).flatten))))
    fun x' st =>
      (AllExact (readSubtracted stringToLower e x r) ↔
        Fits stringToLower e x.request.reqStatus got.length (pieces [r])
          (got ++ (pieces [r]).flatten)) ∧
      (AllExact (readSubtracted stringToLower e x r) →
        Left stringToLower (got ++ (pieces [r]).flatten) x'.request st)

theorem Counting.remain_le {got : Bytes} {r : HTTPRequest} (h : Counting stringToLower got r) :
    r.remainRecvLen ≤ announced stringToLower got := by
  cases h with
  | head hr hinc => simp [hr]
  | body len n hann hst hrem =>
    have hle := hann.le
    rw [hann.announced_eq]
    omega

theorem append_pieces_data (got bs : Bytes) : got ++ (pieces [.data bs]).flatten = got ++ bs := by
  simp [pieces, piece]

/-- A read without bytes. -/
theorem idle_counts {got : Bytes} {x : Reading} {r : Recv} {st : Option ReadStatus}
    (hcount : Counting stringToLower got x.request) (hr : piece r = none) :
    TurnCounts stringToLower e got x r (.ret (x.emit .handleConnClosed) st) := by
  have hnil : pieces [r] = [] := by simp [pieces, hr]
  have hsub : readSubtracted stringToLower e x r = [] := by
    cases r with
    | data bs => simp [piece] at hr
    | again => rfl
    | closed => rfl
  have hgot : got ++ (pieces [r]).flatten = got := by rw [hnil, List.flatten_nil, List.append_nil]
  have hexact : AllExact (readSubtracted stringToLower e x r) := by
    rw [hsub]
    simp [AllExact]
  rw [TurnCounts, Turn.Holds, hgot]
  refine ⟨⟨fun _ => ?_, fun _ => hexact⟩, fun _ => ⟨hcount.remain_le, fun _ => .inr hcount⟩⟩
  cases hcount with
  | head hr' hinc => exact fits_of_not_header fun len h => by simp [hinc] at h
  | body len n hann hst hrem =>
    refine (fits_iff hann).mpr (.inr (.inr ?_))
    omega

/-- A read in the body. -/
theorem body_counts {got bs : Bytes} {x x₁ : Reading} {len n : ℕ}
    (hann : Announces stringToLower got len n) (hst : x.request.reqStatus = .bodyReceiving)
    (hrem : x.request.remainRecvLen + got.length = len + n)
    (hst₁ : x₁.request.reqStatus = .bodyReceiving)
    (hrem₁ : x₁.request.remainRecvLen = subSize x.request.remainRecvLen bs.length) :
    TurnCounts stringToLower e got x (.data bs) (bodyTurn x₁) := by
  have hgot := append_pieces_data got bs
  have hsub : AllExact (readSubtracted stringToLower e x (.data bs)) ↔
      bs.length ≤ x.request.remainRecvLen := by
    simp [AllExact, readSubtracted, hst]
  obtain ⟨x₂, hturn, hrem₂, hst₂⟩ := bodyTurn_remain x₁ hst₁
  have hann' := hann.append bs
  have hlen := hann.le
  rw [hturn, TurnCounts, Turn.Holds, hgot, hsub]
  have hrem' : bs.length ≤ x.request.remainRecvLen →
      x₂.request.remainRecvLen + (got ++ bs).length = len + n := by
    intro hle
    rw [hrem₂, hrem₁, subSize_of_le hle, List.length_append]
    omega
  refine ⟨fun hle => ?_, fun rs hrs => ?_⟩
  · rcases hst₂ with hst₂ | ⟨hst₂, -⟩
    · exact .inl (.body len n hann' hst₂ (hrem' hle))
    · refine .inr ⟨hst₂, ?_⟩
      have := hrem' hle
      rw [hann'.announced_eq]
      rw [List.length_append] at this
      omega
  · have hcons : got ++ (pieces (.data bs :: rs)).flatten = got ++ bs ++ (pieces rs).flatten := by
      simp [pieces, piece]
    rw [hcons, fits_iff (hann'.append _), hst]
    have hsmall : Small len got.length (pieces (.data bs :: rs)) := small_of_le hlen _
    simp only [ne_eq, not_true_eq_false, and_false, false_or, hsmall]
    rcases hst₂ with hst₂ | ⟨hst₂, -⟩
    · rw [fits_iff (hann'.append _), hst₂]
      have hsmall' : Small len (got ++ bs).length (pieces rs) :=
        small_of_le (by rw [List.length_append]; omega) _
      simp only [ne_eq, not_true_eq_false, and_false, false_or, hsmall', reduceCtorEq]
      refine ⟨fun h => ⟨?_, h⟩, fun h => h.2⟩
      rw [List.length_append, List.length_append] at h
      omega
    · rw [hrs hst₂, hst₂]
      simp only [true_or, and_true]
      rw [show pieces [] = [] from rfl, List.flatten_nil, List.append_nil, List.length_append]
      omega

/-- What a read in the head subtracts. -/
theorem readSubtracted_head {got bs : Bytes} {x : Reading}
    (hx : x.request = { reqStatus := .headerReceiving, rbuf := got }) :
    readSubtracted stringToLower e x (.data bs) =
      match parsed stringToLower (got ++ bs) with
      | (r, .header headerLen) =>
        if kHTTPMaxHeader < r.rbuf.length ∨ e.needReply then []
        else [(r.remainRecvLen, r.rbuf.length - headerLen)]
      | _ => [] := by
  unfold readSubtracted
  rw [hx]
  rfl

/-- A read with which the head is not complete, or not in order. -/
theorem header_counts_none {got bs : Bytes} {x x₁ : Reading}
    (hx : x.request = { reqStatus := .headerReceiving, rbuf := got })
    (hx₁ : x₁.request = { reqStatus := .headerReceiving, rbuf := got ++ bs })
    (hno : ∀ len, (parsed stringToLower (got ++ bs)).2 ≠ .header len) :
    TurnCounts stringToLower e got x (.data bs) (headerTurn stringToLower x₁ e.needReply) := by
  have hgot := append_pieces_data got bs
  have hremain : (parsed stringToLower (got ++ bs)).1.remainRecvLen =
      announced stringToLower (got ++ bs) := parsed_remain _
  have hparse : parseHeader stringToLower x₁.request = parsed stringToLower (got ++ bs) := by
    rw [hx₁]
    rfl
  have hsub : AllExact (readSubtracted stringToLower e x (.data bs)) := by
    rw [readSubtracted_head hx]
    split
    case _ hp => exact absurd (congrArg Prod.snd hp) (hno _)
    case _ => simp [AllExact]
  have hfits : Fits stringToLower e x.request.reqStatus got.length (pieces [.data bs])
      (got ++ bs) := fits_of_not_header hno
  unfold headerTurn
  dsimp only
  rw [hparse]
  cases hp : parsed stringToLower (got ++ bs) with
  | mk r result =>
    rw [hp] at hremain hno
    cases result with
    | header len => exact absurd rfl (hno len)
    | exception =>
      rw [TurnCounts, Turn.Holds, hgot]
      exact ⟨⟨fun _ => hfits, fun _ => hsub⟩, fun _ => ⟨hremain.le, fun h => absurd h (by decide)⟩⟩
    | malformed =>
      rw [TurnCounts, Turn.Holds, hgot]
      exact ⟨⟨fun _ => hfits, fun _ => hsub⟩, fun _ => ⟨hremain.le, fun h => absurd h (by decide)⟩⟩
    | incomplete =>
      have hr : r = { reqStatus := .headerReceiving, rbuf := got ++ bs } := parseHeader_incomplete hp
      have hst : x.request.reqStatus = .headerReceiving := by rw [hx]
      dsimp only
      split_ifs with hbig
      · rw [TurnCounts, Turn.Holds, hgot]
        exact ⟨⟨fun _ => hfits, fun _ => hsub⟩,
          fun _ => ⟨hremain.le, fun h => absurd h (by decide)⟩⟩
      · rw [TurnCounts, Turn.Holds, hgot]
        refine ⟨fun _ => .inl (.head hr (by rw [hp])), fun rs hrs => ?_⟩
        have hcons : pieces (.data bs :: rs) = bs :: pieces rs := rfl
        rw [hr] at hbig ⊢
        have hsmall : got.length + bs.length ≤ kHTTPMaxHeader := by
          rw [← List.length_append]
          exact not_lt.mp hbig
        rw [hcons, List.flatten_cons, ← List.append_assoc, fits_cons hsmall, hst, List.length_append]
        simp only [reduceCtorEq, false_or]
        exact ⟨fun h => ⟨hsub, h⟩, fun h => h.2⟩

/-- What a read subtracts that completes the head. -/
theorem readSubtracted_some {got bs : Bytes} {x : Reading} {len n : ℕ}
    (hx : x.request = { reqStatus := .headerReceiving, rbuf := got })
    (hann : Announces stringToLower (got ++ bs) len n) :
    readSubtracted stringToLower e x (.data bs) =
      if kHTTPMaxHeader < (got ++ bs).length ∨ e.needReply then []
      else [(n, (got ++ bs).length - len)] := by
  obtain ⟨r, hr, hrbuf, hn⟩ := hann.request
  rw [readSubtracted_head hx, hr]
  dsimp only
  rw [hrbuf, hn]

/-- The head is too long: the request is refused before anything is subtracted. -/
theorem refused_counts {got bs : Bytes} {x x₂ : Reading} {len n : ℕ}
    (hx : x.request = { reqStatus := .headerReceiving, rbuf := got }) (hlt : got.length < len)
    (hann : Announces stringToLower (got ++ bs) len n) (hn : x₂.request.remainRecvLen = n)
    (hbig : kHTTPMaxHeader < (got ++ bs).length) :
    TurnCounts stringToLower e got x (.data bs) (.ret x₂ (some .readError)) := by
  have hexact : AllExact (readSubtracted stringToLower e x (.data bs)) := by
    rw [readSubtracted_some hx hann, if_pos (.inl hbig)]
    simp [AllExact]
  rw [TurnCounts, Turn.Holds, append_pieces_data]
  refine ⟨⟨fun _ => (fits_iff hann).mpr (.inr (.inl fun hsmall => ?_)), fun _ => hexact⟩, fun _ => ?_⟩
  · have hlast := hsmall.1 hlt
    rw [List.length_append] at hbig
    omega
  · refine ⟨?_, fun h => absurd h (by decide)⟩
    rw [hann.announced_eq]
    exact hn.le

/-- The handler answers at once: nothing is subtracted. -/
theorem replied_counts {got bs : Bytes} {x x₂ : Reading} {len n : ℕ}
    (hx : x.request = { reqStatus := .headerReceiving, rbuf := got })
    (hann : Announces stringToLower (got ++ bs) len n) (hreply : e.needReply = true)
    (hst₂ : x₂.request.reqStatus = .bodyReceived) (hn : x₂.request.remainRecvLen = n) :
    TurnCounts stringToLower e got x (.data bs) (.next x₂) := by
  have hexact : AllExact (readSubtracted stringToLower e x (.data bs)) := by
    rw [readSubtracted_some hx hann, if_pos (.inr hreply)]
    simp [AllExact]
  rw [TurnCounts, Turn.Holds, append_pieces_data]
  refine ⟨fun _ => .inr ⟨hst₂, ?_⟩, fun rs hrs => ⟨fun _ => ⟨hexact, .inl hst₂⟩, fun _ => ?_⟩⟩
  · rw [hann.announced_eq]
    exact hn.le
  · rw [hrs hst₂, append_pieces_data, fits_iff hann, hx]
    exact .inl ⟨hreply, by simp⟩

/-- Of what is behind the head only the length matters. -/
theorem fits_head_iff {got bs : Bytes} {len n : ℕ} (hann : Announces stringToLower (got ++ bs) len n)
    (hreply : e.needReply = false) (hsmall : (got ++ bs).length ≤ kHTTPMaxHeader) (rs : List Recv) :
    Fits stringToLower e .headerReceiving got.length (pieces (.data bs :: rs))
        (got ++ (pieces (.data bs :: rs)).flatten) ↔
      (got ++ bs ++ (pieces rs).flatten).length ≤ len + n := by
  have hle := hann.le
  have hcons : pieces (.data bs :: rs) = bs :: pieces rs := rfl
  rw [List.length_append] at hle hsmall
  have hrest : Small len (got.length + bs.length) (pieces rs) := small_of_le hle _
  rw [hcons, List.flatten_cons, ← List.append_assoc, fits_cons hsmall, fits_iff (hann.append _),
    hreply]
  simp [hrest]

/-- The subtraction is exact if no more has come than was announced, and leaves what is to come. -/
theorem readSubtracted_exact {got bs : Bytes} {x : Reading} {len n : ℕ}
    (hx : x.request = { reqStatus := .headerReceiving, rbuf := got })
    (hann : Announces stringToLower (got ++ bs) len n) (hreply : e.needReply = false)
    (hsmall : (got ++ bs).length ≤ kHTTPMaxHeader) :
    (AllExact (readSubtracted stringToLower e x (.data bs)) ↔ (got ++ bs).length ≤ len + n) ∧
      ((got ++ bs).length ≤ len + n →
        subSize n ((got ++ bs).length - len) + (got ++ bs).length = len + n) := by
  have hle := hann.le
  constructor
  · rw [readSubtracted_some hx hann, if_neg (not_or.mpr ⟨not_lt.mpr hsmall, by simp [hreply]⟩)]
    simp only [AllExact, List.mem_singleton, forall_eq]
    omega
  · intro hfit
    rw [subSize_of_le (by omega)]
    omega

/-- The head is taken over, and the call goes on. -/
theorem taken_counts_next {got bs : Bytes} {x x₂ : Reading} {len n : ℕ}
    (hx : x.request = { reqStatus := .headerReceiving, rbuf := got })
    (hann : Announces stringToLower (got ++ bs) len n) (hreply : e.needReply = false)
    (hsmall : (got ++ bs).length ≤ kHTTPMaxHeader)
    (hrem₂ : x₂.request.remainRecvLen = subSize n ((got ++ bs).length - len))
    (hst₂ : x₂.request.reqStatus = .bodyReceiving ∨
      x₂.request.reqStatus = .bodyReceived ∧ subSize n ((got ++ bs).length - len) = 0) :
    TurnCounts stringToLower e got x (.data bs) (.next x₂) := by
  obtain ⟨hexact, hremain⟩ := readSubtracted_exact hx hann hreply hsmall
  rw [TurnCounts, Turn.Holds, append_pieces_data]
  refine ⟨fun hall => ?_, fun rs hrs => ?_⟩
  · have hrem := hremain (hexact.mp hall)
    rw [← hrem₂] at hrem
    rcases hst₂ with hst₂ | ⟨hst₂, hzero⟩
    · exact .inl (.body len n hann hst₂ hrem)
    · rw [hrem₂, hzero]
      exact .inr ⟨hst₂, Nat.zero_le _⟩
  · rw [hexact, hx, fits_head_iff hann hreply hsmall]
    rcases hst₂ with hst₂ | ⟨hst₂, -⟩
    · have hrest : Small len (got ++ bs).length (pieces rs) := small_of_le hann.le _
      rw [fits_iff (hann.append _), hst₂, hreply]
      simp only [Bool.false_eq_true, false_and, false_or, hrest, not_true_eq_false, reduceCtorEq]
      refine ⟨fun h => ⟨?_, h⟩, fun h => h.2⟩
      rw [List.length_append] at h
      omega
    · rw [hrs hst₂, hst₂]
      simp [pieces]

/-- The head is taken over, and the call returns to send `100 Continue`. -/
theorem taken_counts_ret {got bs : Bytes} {x x₂ : Reading} {st : Option ReadStatus} {len n : ℕ}
    (hx : x.request = { reqStatus := .headerReceiving, rbuf := got })
    (hann : Announces stringToLower (got ++ bs) len n) (hreply : e.needReply = false)
    (hsmall : (got ++ bs).length ≤ kHTTPMaxHeader)
    (hrem₂ : x₂.request.remainRecvLen = subSize n ((got ++ bs).length - len))
    (hst₂ : x₂.request.reqStatus = .bodyReceiving) :
    TurnCounts stringToLower e got x (.data bs) (.ret x₂ st) := by
  obtain ⟨hexact, hremain⟩ := readSubtracted_exact hx hann hreply hsmall
  have hone := fits_head_iff hann hreply hsmall []
  rw [show pieces [] = [] from rfl, List.flatten_nil, List.append_nil] at hone
  rw [append_pieces_data] at hone
  rw [TurnCounts, Turn.Holds, append_pieces_data, hx]
  refine ⟨hexact.trans hone.symm, fun hall => ?_⟩
  have hcount : Counting stringToLower (got ++ bs) x₂.request := by
    refine .body len n hann hst₂ ?_
    rw [hrem₂]
    exact hremain (hexact.mp hall)
  exact ⟨hcount.remain_le, fun _ => .inr hcount⟩

/-- A read that completes the head. -/
theorem header_counts_some {got bs : Bytes} {x x₁ : Reading} {len n : ℕ}
    (hx : x.request = { reqStatus := .headerReceiving, rbuf := got })
    (hinc : (parsed stringToLower got).2 = .incomplete)
    (hx₁ : x₁.request = { reqStatus := .headerReceiving, rbuf := got ++ bs })
    (hann : Announces stringToLower (got ++ bs) len n) :
    TurnCounts stringToLower e got x (.data bs) (headerTurn stringToLower x₁ e.needReply) := by
  have hlt := hann.lt_of_incomplete hinc
  obtain ⟨r, hr, hrbuf, hn⟩ := hann.request
  have hparse : parseHeader stringToLower x₁.request = (r, .header len) := by
    rw [hx₁]
    exact hr
  unfold headerTurn
  dsimp only
  rw [hparse]
  dsimp only
  rw [hrbuf]
  by_cases hbig : kHTTPMaxHeader < (got ++ bs).length
  · rw [if_pos hbig]
    exact refused_counts hx hlt hann hn hbig
  rw [if_neg hbig]
  cases hreply : e.needReply with
  | true =>
    unfold headerParsed
    dsimp only [Reading.emit]
    rw [if_pos rfl]
    exact replied_counts hx hann hreply rfl hn
  | false =>
    have hm : subSize r.remainRecvLen (r.rbuf.length - len) =
        subSize n ((got ++ bs).length - len) := by rw [hn, hrbuf]
    refine (headerParsed_remain _ len hm).imp (fun x₂ hx₂ => ?_) fun x₂ st hx₂ => ?_
    · exact taken_counts_next hx hann hreply (not_lt.mp hbig) hx₂.1 hx₂.2
    · exact taken_counts_ret hx hann hreply (not_lt.mp hbig) hx₂.1 hx₂.2

/-- **One turn.** -/
theorem turn_counts {got : Bytes} {x : Reading} {r : Recv} {t : Turn}
    (hcount : Counting stringToLower got x.request)
    (ht : turnOf stringToLower security e x r = some t) : TurnCounts stringToLower e got x r t := by
  unfold turnOf at ht
  cases id hcount with
  | head hr hinc =>
    rw [hr] at ht
    dsimp only at ht
    rcases readThen_cases ht with ⟨hnone, st, -, rfl⟩ | ⟨bs, x₁, rfl, -, -, -, -, hreq, rfl⟩
    · exact idle_counts hcount hnone
    · have hx₁ : x₁.request = { reqStatus := .headerReceiving, rbuf := got ++ bs } := by
        rw [hreq, hr]
        rfl
      by_cases hann : ∃ len, (parsed stringToLower (got ++ bs)).2 = .header len
      · obtain ⟨len, hlen⟩ := hann
        have hann : Announces stringToLower (got ++ bs) len
            (parsed stringToLower (got ++ bs)).1.remainRecvLen :=
          ⟨(parsed stringToLower (got ++ bs)).1, by rw [← hlen], rfl⟩
        exact header_counts_some hr hinc hx₁ hann
      · exact header_counts_none hr hx₁ fun len hlen => hann ⟨len, hlen⟩
  | body len n hann hst hrem =>
    rw [hst] at ht
    dsimp only at ht
    rcases readThen_cases ht with ⟨hnone, st, -, rfl⟩ | ⟨bs, x₁, rfl, -, -, -, -, hreq, rfl⟩
    · exact idle_counts hcount hnone
    · rw [hst, if_pos rfl] at hreq
      exact body_counts hann hst hrem (by rw [hreq, hst]) (by rw [hreq])

/-! ### One call -/

theorem readLoop_cons (r : Recv) (rs : List Recv) (x : Reading) :
    readLoop stringToLower security e (r :: rs) x =
      match turnOf stringToLower security e x r with
      | none => none
      | some (.ret x st) => if rs = [] then some (x, st) else none
      | some (.next x) => readLoop stringToLower security e rs x := by
  rw [readLoop]
  unfold turnOf
  rfl

/-- A request that has been received is answered without further reads. -/
theorem readLoop_received {rs : List Recv} {x x' : Reading} {st : Option ReadStatus}
    (hst : x.request.reqStatus = .bodyReceived)
    (hl : readLoop stringToLower security e rs x = some (x', st)) :
    rs = [] ∧ x'.request = { x.request with reqStatus := .newRequest } := by
  cases rs with
  | nil =>
    unfold readLoop at hl
    rw [hst] at hl
    dsimp only at hl
    unfold receivedTurn at hl
    dsimp only [Reading.emit] at hl
    cases hprep : prepareResponse x.response e.prepare with
    | none =>
      rw [hprep] at hl
      obtain ⟨rfl, -⟩ := Prod.mk.inj (Option.some.inj hl)
      exact ⟨rfl, rfl⟩
    | some resp =>
      rw [hprep] at hl
      obtain ⟨rfl, -⟩ := Prod.mk.inj (Option.some.inj hl)
      exact ⟨rfl, rfl⟩
  | cons r rs =>
    rw [readLoop_cons, turnOf, hst] at hl
    simp at hl

theorem allExact_append (l l' : List (ℕ × ℕ)) :
    AllExact (l ++ l') ↔ AllExact l ∧ AllExact l' := by
  simp only [AllExact, List.mem_append, or_imp, forall_and]

theorem Counting.status {got : Bytes} {r : HTTPRequest} (h : Counting stringToLower got r) :
    r.reqStatus = .headerReceiving ∨ r.reqStatus = .bodyReceiving := by
  cases h with
  | head hr hinc => exact .inl (by rw [hr])
  | body len n hann hst hrem => exact .inr hst

theorem pieces_cons (r : Recv) (rs : List Recv) :
    (pieces (r :: rs)).flatten = (pieces [r]).flatten ++ (pieces rs).flatten := by
  rw [← List.flatten_append, pieces, pieces, pieces, ← List.filterMap_append]
  rfl

/-- **The loop of `ReadData`.** The induction is on the reads; the turns are related by
`turn_counts`. -/
theorem loop_counts {rs : List Recv} {got : Bytes} {x x' : Reading} {st : Option ReadStatus}
    (hcount : Counting stringToLower got x.request)
    (hl : readLoop stringToLower security e rs x = some (x', st)) :
    (AllExact (loopSubtracted stringToLower security e rs x) ↔
      Fits stringToLower e x.request.reqStatus got.length (pieces rs)
        (got ++ (pieces rs).flatten)) ∧
    (AllExact (loopSubtracted stringToLower security e rs x) →
      Left stringToLower (got ++ (pieces rs).flatten) x'.request st) := by
  induction rs generalizing got x with
  | nil =>
    unfold readLoop at hl
    rcases hcount.status with hst | hst <;> simp [hst] at hl
  | cons r rs ih =>
    rw [readLoop_cons] at hl
    rw [loopSubtracted]
    cases hturn : turnOf stringToLower security e x r with
    | none => simp [hturn] at hl
    | some t =>
      have hcounts := turn_counts hcount hturn
      rw [hturn] at hl
      cases t with
      | ret x₂ st₂ =>
        dsimp only at hl ⊢
        split_ifs at hl with hnil
        obtain ⟨rfl, rfl⟩ := Prod.mk.inj (Option.some.inj hl)
        subst hnil
        rw [List.append_nil]
        exact hcounts
      | next x₂ =>
        obtain ⟨hnext, hfits⟩ := hcounts
        dsimp only at hl ⊢
        have hrs : x₂.request.reqStatus = .bodyReceived → rs = [] :=
          fun hst => (readLoop_received hst hl).1
        have hgot : got ++ (pieces (r :: rs)).flatten =
            got ++ (pieces [r]).flatten ++ (pieces rs).flatten := by
          rw [pieces_cons r rs, List.append_assoc]
        rw [hfits rs hrs, allExact_append, hgot]
        by_cases hall : AllExact (readSubtracted stringToLower e x r)
        · rcases hnext hall with hcount₂ | ⟨hst₂, hrem₂⟩
          · obtain ⟨hiff, hleft⟩ := ih hcount₂ hl
            have hne : x₂.request.reqStatus ≠ .bodyReceived := by
              rcases hcount₂.status with hst | hst <;> simp [hst]
            refine ⟨and_congr_right fun _ => hiff.trans ?_, fun h => hleft h.2⟩
            exact ⟨.inr, fun h => h.resolve_left hne⟩
          · obtain ⟨rfl, hreq⟩ := readLoop_received hst₂ hl
            have hnil : AllExact (loopSubtracted stringToLower security e [] x₂) := by
              simp [AllExact, loopSubtracted]
            refine ⟨⟨fun h => ⟨h.1, .inl hst₂⟩, fun h => ⟨h.1, hnil⟩⟩, fun _ => ?_⟩
            rw [show pieces [] = [] from rfl, List.flatten_nil, List.append_nil, hreq]
            exact ⟨hrem₂, fun _ => .inl rfl⟩
        · exact ⟨⟨fun h => absurd h.1 hall, fun h => absurd h.1 hall⟩, fun h => absurd h.1 hall⟩

/-- `ReadData` is its loop from the entry. -/
theorem readData_entry {c : HTTPConn} {x' : Reading} {st : Option ReadStatus}
    (h : readData stringToLower security c e = some (x', st)) :
    (∃ x, entry c = some x ∧ readLoop stringToLower security e e.reads x = some (x', st)) ∨
      entry c = none ∧ c.request.reqStatus = .newRequest ∧ e.reads = [] ∧
        x'.request = c.request.reset := by
  unfold readData at h
  dsimp only at h
  unfold entry
  by_cases hnew : c.request.reqStatus = .newRequest
  · rw [if_pos hnew] at h ⊢
    by_cases hfin : c.response.finished = true
    · rw [if_pos hfin] at h ⊢
      exact .inl ⟨_, rfl, h⟩
    · rw [if_neg hfin] at h ⊢
      split_ifs at h with hnil
      obtain ⟨rfl, -⟩ := Prod.mk.inj (Option.some.inj h)
      exact .inr ⟨rfl, hnew, hnil, rfl⟩
  · rw [if_neg hnew] at h ⊢
    exact .inl ⟨_, rfl, h⟩

end Turn

/-! ### The run -/

variable (stringToLower) in
/-- A connection in which the counter has always been right. -/
structure Inv (w : Watched) : Prop where
  remain : w.conn.request.remainRecvLen ≤ announced stringToLower w.got
  open_ : w.conn.alive = true →
    w.conn.request.reqStatus = .newRequest ∨ Counting stringToLower w.got w.conn.request

theorem counting_nil : Counting stringToLower [] { reqStatus := .headerReceiving } :=
  .head rfl rfl

/-- The loop is entered with a request that is being received. -/
theorem entry_counting {w : Watched} (hinv : Inv stringToLower w) (halive : w.conn.alive = true)
    {x : Reading} (hx : entry w.conn = some x) :
    Counting stringToLower w.before x.request ∧
      (x.request.reqStatus = .bodyReceiving ↔ w.conn.request.reqStatus = .bodyReceiving) := by
  unfold entry at hx
  unfold Watched.before
  by_cases hnew : w.conn.request.reqStatus = .newRequest
  · rw [if_pos hnew] at hx ⊢
    split_ifs at hx
    obtain rfl := Option.some.inj hx
    exact ⟨counting_nil, by simp [hnew]⟩
  · rw [if_neg hnew] at hx ⊢
    obtain rfl := Option.some.inj hx
    exact ⟨(hinv.open_ halive).resolve_left hnew, Iff.rfl⟩

theorem fits_congr {e : Env} {st st' : RequestStatus} {n : ℕ} {ds : List Bytes} {got : Bytes}
    (h : st = .bodyReceiving ↔ st' = .bodyReceiving) :
    Fits stringToLower e st n ds got ↔ Fits stringToLower e st' n ds got := by
  simp only [Fits, ne_eq, h]

/-- **An event brings no bytes behind the announced body exactly if its subtractions are exact**, and
then the counter is right afterwards. -/
theorem getRequest_counts {security : Bool} {w : Watched} {e : Env} {c' : HTTPConn}
    (hinv : Inv stringToLower w)
    (hc' : stepOption stringToLower security w.conn (.getRequest e) = some c') :
    (AllExact (subtracted stringToLower security w.conn (.getRequest e)) ↔
      Fits stringToLower e w.conn.request.reqStatus w.before.length (pieces e.reads)
        (w.after (.getRequest e))) ∧
    (AllExact (subtracted stringToLower security w.conn (.getRequest e)) →
      Inv stringToLower ⟨c', w.after (.getRequest e)⟩) := by
  obtain ⟨halive, hget⟩ := stepOption_getRequest.mp hc'
  obtain ⟨x', st, hread, hcalls, hreq, -⟩ := Handlers.getRequest_calls hget
  have halive' : c'.alive = true → goesOn st = true := by
    intro h
    have hmem : (st, x'.events) ∈ c'.calls := by simp [hcalls]
    exact HTTPConn.goesOn_of_alive h hmem
  rw [subtracted]
  rcases readData_entry hread with ⟨x, hx, hl⟩ | ⟨hx, hnew, hnil, hreset⟩
  · obtain ⟨hcount, hst⟩ := entry_counting hinv halive hx
    obtain ⟨hiff, hleft⟩ := loop_counts hcount hl
    rw [hx]
    refine ⟨hiff.trans (fits_congr hst), fun hall => ?_⟩
    obtain ⟨hremain, hopen⟩ := hleft hall
    exact ⟨by rw [hreq]; exact hremain, fun h => by rw [hreq]; exact hopen (halive' h)⟩
  · have hafter : w.after (.getRequest e) = [] := by
      rw [Watched.after, Watched.before, if_pos hnew, hnil]
      rfl
    have hexact : AllExact [] := by simp [AllExact]
    rw [hx, hafter]
    refine ⟨⟨fun _ => fits_of_not_header fun len h => ?_, fun _ => hexact⟩, fun _ => ⟨?_, fun _ => ?_⟩⟩
    · cases h
    · rw [hreq, hreset]
      exact Nat.zero_le _
    · refine .inl ?_
      rw [hreq, hreset]
      exact hnew

theorem watch_inv {security : Bool} {w : Watched} {op : Op} (hinv : Inv stringToLower w)
    (hop : Within stringToLower security w op) :
    Inv stringToLower (watch stringToLower security w op) := by
  unfold watch
  cases hstep : stepOption stringToLower security w.conn op with
  | none => exact hinv
  | some c' =>
    cases op with
    | getRequest e =>
      obtain ⟨hiff, hinv'⟩ := getRequest_counts hinv hstep
      refine hinv' (hiff.mpr (hop ?_))
      rw [Happens, hstep]
      rfl
    | sendReply o =>
      obtain ⟨⟨halive, -⟩, hsend⟩ := stepOption_sendReply.mp hstep
      obtain ⟨-, hreq⟩ := sendReply_calls hsend
      refine ⟨?_, fun _ => ?_⟩
      · dsimp only
        rw [hreq]
        exact hinv.remain
      · dsimp only
        rw [hreq]
        exact hinv.open_ halive

theorem exact_iff {security : Bool} {w : Watched} {op : Op} (hinv : Inv stringToLower w) :
    Exact stringToLower security w op ↔ Within stringToLower security w op := by
  constructor
  · intro hexact
    cases op with
    | sendReply o => trivial
    | getRequest e =>
      intro hhappens
      obtain ⟨c', hc'⟩ := Option.isSome_iff_exists.mp hhappens
      exact (getRequest_counts hinv hc').1.mp (hexact.1 hhappens)
  · intro hwithin
    refine ⟨fun hhappens => ?_, (watch_inv hinv hwithin).remain⟩
    obtain ⟨c', hc'⟩ := Option.isSome_iff_exists.mp hhappens
    cases op with
    | sendReply o => simp [subtracted]
    | getRequest e => exact (getRequest_counts hinv hc').1.mpr (hwithin hhappens)

/-- **In a run, every subtraction from the counter is exact and the counter is never more than what is
announced, precisely if no event brings bytes behind the announced body.** -/
theorem counter_iff (stringToLower : Bytes → Bytes) (security : Bool) (ops : List Op) :
    Guarded (watch stringToLower security) (Exact stringToLower security) {} ops ↔
      Guarded (watch stringToLower security) (Within stringToLower security) {} ops := by
  refine guarded_iff_of_inv (Inv stringToLower) (fun w op hinv hop => watch_inv hinv hop)
    (fun w op hinv => exact_iff hinv) ?_
  exact ⟨Nat.zero_le _, fun _ => .inl rfl⟩

/-- A request without a body, and the beginning of the next one in the same read. -/
def pipelined : Env :=
  ⟨[.data (bytes "GET /a HTTP/1.1\r\n\r\nGET"), .again], false, []⟩

/-- Three bytes are subtracted from 0, and the connection waits for `2 ^ 64 - 3` more. -/
theorem pipelined_underflows :
    subtracted asciiLower false {} (.getRequest pipelined) = [(0, 3)] ∧
      (watch asciiLower false {} (.getRequest pipelined)).conn.request.remainRecvLen =
        2 ^ 64 - 3 ∧
      ¬Guarded (watch asciiLower false) (Exact asciiLower false) {} [.getRequest pipelined] := by
  have hsub : subtracted asciiLower false {} (.getRequest pipelined) = [(0, 3)] := by
    decide +kernel
  refine ⟨hsub, by decide +kernel, fun hexact => ?_⟩
  have hle := hexact.1.1 (by decide +kernel) (0, 3)
  exact absurd (hle (hsub ▸ List.mem_cons_self)) (by decide)

end Pink.Http.Counter
