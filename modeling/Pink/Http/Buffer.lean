import Pink.Http.Turns

/-! # The receive buffer

A read without SSL asks for what is left of `rbuf_`, a read with SSL for the size of the whole buffer,
wherever it begins. In the header a byte more is needed, for the terminating zero. So nothing is
written behind the end of the buffer precisely if no read in the header fills the buffer, and with SSL
every read begins at its start (`buffer_iff`). -/

namespace Pink.Http.Buffer

open Pink.Redis.Wire Pink.Http.Request Pink.Http.Conn Pink.Http.Heads Pink.Http.Delivery
open Pink.Http.Counter Pink.Http.Turns Pink.Lib.Runs
open Pink.Http.Handlers (Happens asciiLower)

/-- **A read stays within `rbuf_`**: it asks for some bytes, for which there is room, and the zero
behind what it brings of a header is within the buffer. -/
def Inside (security : Bool) (_ : Env) (x : Reading) (r : Recv) : Prop :=
  (0 < readCount security x.request ∧
    x.request.rbuf.length + readCount security x.request ≤ kHTTPMaxMessage) ∧
  (x.request.reqStatus = .headerReceiving →
    ∀ bs ∈ piece r, (x.request.rbuf ++ bs).length < kHTTPMaxMessage)

/-- **With SSL, nothing is in the buffer before a read; and no read in the header brings all that it
asks for.** -/
def Spare (security : Bool) (_ : Env) (x : Reading) (r : Recv) : Prop :=
  (security = true → x.request.rbuf = []) ∧
  (x.request.reqStatus = .headerReceiving →
    ∀ bs ∈ piece r, bs.length ≠ readCount security x.request)

/-- What is in the buffer of a request that is being received. -/
structure Room (r : HTTPRequest) : Prop where
  header : r.reqStatus = .headerReceiving → r.rbuf.length ≤ kHTTPMaxHeader
  body : r.reqStatus = .bodyReceiving → r.rbuf.length < kHTTPMaxMessage

theorem kHTTPMaxHeader_lt : kHTTPMaxHeader < kHTTPMaxMessage := by decide

theorem Room.lt {r : HTTPRequest} (h : Room r)
    (hst : r.reqStatus = .headerReceiving ∨ r.reqStatus = .bodyReceiving) :
    r.rbuf.length < kHTTPMaxMessage := by
  rcases hst with hst | hst
  · exact (h.header hst).trans_lt kHTTPMaxHeader_lt
  · exact h.body hst

/-- A buffer of at most `kHTTPMaxHeader` bytes has room in each state. -/
theorem room_of_le {r : HTTPRequest} (h : r.rbuf.length ≤ kHTTPMaxHeader) : Room r :=
  ⟨fun _ => h, fun _ => h.trans_lt kHTTPMaxHeader_lt⟩

variable {stringToLower : Bytes → Bytes} {security : Bool} {e : Env} {x : Reading} {r : Recv}
  {t : Turn}

/-- A read is made in one of two states, and brings at most what is asked for. -/
theorem turnOf_cases (ht : turnOf stringToLower security e x r = some t) :
    (x.request.reqStatus = .headerReceiving ∨ x.request.reqStatus = .bodyReceiving) ∧
      ∀ bs ∈ piece r, bs.length ≤ readCount security x.request := by
  have hread : ∀ turn, readThen security turn x r = some t →
      ∀ bs ∈ piece r, bs.length ≤ readCount security x.request := by
    intro turn hturn bs hbs
    rcases readThen_cases hturn with ⟨hnone, -⟩ | ⟨bs', x', rfl, hle, -⟩
    · rw [hnone] at hbs
      simp at hbs
    · obtain rfl := Option.some.inj hbs
      exact hle
  rcases turnOf_eq_some ht with ⟨hst, ht⟩ | ⟨hst, ht⟩
  · exact ⟨.inl hst, hread _ ht⟩
  · exact ⟨.inr hst, hread _ ht⟩

theorem turn_inside_iff (hroom : Room x.request) (ht : turnOf stringToLower security e x r = some t) :
    Inside security e x r ↔ Spare security e x r := by
  obtain ⟨hst, hle⟩ := turnOf_cases ht
  have hlt := hroom.lt hst
  cases security with
  | true =>
    have hcount : readCount true x.request = kHTTPMaxMessage := rfl
    simp only [Inside, Spare, hcount] at hle ⊢
    constructor
    · rintro ⟨⟨-, hfit⟩, hzero⟩
      refine ⟨fun _ => List.length_eq_zero_iff.mp (by omega), fun hhead bs hbs => ?_⟩
      have hend := hzero hhead bs hbs
      rw [List.length_append] at hend
      omega
    · rintro ⟨hnil, hpart⟩
      rw [hnil trivial]
      refine ⟨⟨by decide, by simp⟩, fun hhead bs hbs => ?_⟩
      exact lt_of_le_of_ne (hle bs hbs) (hpart hhead bs hbs)
  | false =>
    have hcount : readCount false x.request = kHTTPMaxMessage - x.request.rbuf.length := rfl
    simp only [Inside, Spare, hcount] at hle ⊢
    constructor
    · rintro ⟨-, hzero⟩
      refine ⟨fun h => absurd h (by decide), fun hhead bs hbs => ?_⟩
      have hend := hzero hhead bs hbs
      rw [List.length_append] at hend
      omega
    · rintro ⟨-, hpart⟩
      refine ⟨⟨by omega, by omega⟩, fun hhead bs hbs => ?_⟩
      have hfew := hpart hhead bs hbs
      have hfit := hle bs hbs
      rw [List.length_append]
      omega

/-- The turn after a read in the header. -/
theorem headerTurn_room {needReply : Bool} :
    (headerTurn stringToLower x needReply).Holds (fun x' => Room x'.request) (Kept Room) := by
  refine headerTurn_rule (fun r _ h => ?_) (fun r _ h => ?_)
    (fun r _ hsmall _ => room_of_le hsmall) fun r len _ hsmall => ?_
  · simp [goesOn] at h
  · simp [goesOn] at h
  · have hdrop : (r.rbuf.drop len).length ≤ kHTTPMaxHeader := by
      rw [List.length_drop]
      omega
    unfold headerParsed
    dsimp only [Reading.emit]
    split_ifs
    · exact room_of_le hsmall
    · exact fun _ => .inr (room_of_le hdrop)
    · exact room_of_le hdrop
    · exact room_of_le hdrop

/-- The turn after a read in the body. -/
theorem bodyTurn_room (hst : x.request.reqStatus = .bodyReceiving)
    (hle : x.request.rbuf.length ≤ kHTTPMaxMessage) :
    (bodyTurn x).Holds (fun x' => Room x'.request) (Kept Room) := by
  unfold bodyTurn
  dsimp only [Reading.emit]
  by_cases hempty : x.request.rbuf.length = kHTTPMaxMessage ∨ x.request.remainRecvLen = 0
  · rw [if_pos hempty]
    split_ifs <;> exact room_of_le (Nat.zero_le _)
  · rw [if_neg hempty]
    obtain ⟨hfull, hzero⟩ := not_or.mp hempty
    rw [if_neg hzero]
    refine ⟨fun h => ?_, fun _ => lt_of_le_of_ne hle hfull⟩
    rw [hst] at h
    simp at h

theorem turn_room (hroom : Room x.request) (hspare : Spare security e x r)
    (ht : turnOf stringToLower security e x r = some t) :
    t.Holds (fun x' => Room x'.request) (Kept Room) := by
  have hinside := (turn_inside_iff hroom ht).mpr hspare
  have hbring := (turnOf_cases ht).2
  rcases turnOf_eq_some ht with ⟨-, ht⟩ | ⟨hst, ht⟩
  · rcases readThen_cases ht with ⟨-, st, -, rfl⟩ | ⟨bs, x₁, -, -, -, -, -, -, rfl⟩
    · exact fun _ => .inr hroom
    · exact headerTurn_room
  · rcases readThen_cases ht with ⟨-, st, -, rfl⟩ | ⟨bs, x₁, rfl, -, -, -, -, hreq, rfl⟩
    · exact fun _ => .inr hroom
    · refine bodyTurn_room (by rw [hreq, hst]) ?_
      have hfit := hinside.1.2
      have hread := hbring bs rfl
      rw [hreq, List.length_append]
      omega

/-- **In a run, no read writes outside `rbuf_`, nor does the terminating zero, precisely if no read in
the header fills the buffer and, with SSL, the buffer is empty before each read.** -/
theorem buffer_iff (stringToLower : Bytes → Bytes) (security : Bool) (ops : List Op) :
    Guarded (step stringToLower security)
        (Throughout stringToLower (Inside security) security) {} ops ↔
      Guarded (step stringToLower security)
        (Throughout stringToLower (Spare security) security) {} ops :=
  guarded_turns_iff (Q := Room) (room_of_le (Nat.zero_le _))
    (fun _ _ _ _ hQ ht => turn_inside_iff hQ ht) (fun _ _ _ _ hQ hB ht => turn_room hQ hB ht) ops

/-- A first read without SSL that finds no header in more than `kHTTPMaxHeader` bytes. -/
theorem long_happens {bs : Bytes} (hnone : findSub separator (cstr bs) = none)
    (hlong : kHTTPMaxHeader < bs.length) (hle : bs.length ≤ kHTTPMaxMessage) :
    Happens stringToLower false {} (.getRequest ⟨[.data bs], false, []⟩) := by
  have hread : ∀ x : Reading, x.request = { reqStatus := .headerReceiving } →
      ∃ x', readThen false (fun x => headerTurn stringToLower x false) x (.data bs) =
        some (.ret x' (some .readError)) := by
    intro x hx
    have hbs : ¬(bs = [] ∨ readCount false x.request < bs.length) := by
      rintro (rfl | h)
      · simp at hlong
      · rw [hx] at h
        exact absurd hle (not_le.mpr h)
    rw [readThen]
    dsimp only [doRead]
    rw [if_neg hbs, hx]
    dsimp only [headerTurn, List.nil_append]
    rw [parseHeader, ← separator, hnone]
    dsimp only
    rw [if_pos hlong]
    exact ⟨_, rfl⟩
  obtain ⟨x', hx'⟩ := hread { request := { reqStatus := .headerReceiving }
                              response := HTTPResponse.reset {} } rfl
  have hloop := readLoop_header_ret (e := ⟨[.data bs], false, []⟩) rfl hx'
  have hdata : readData stringToLower false {} ⟨[.data bs], false, []⟩ =
      some (x', some .readError) := hloop
  have halive : ({} : HTTPConn).alive = true := rfl
  rw [Happens, stepOption, if_pos halive, getRequest, hdata]
  rfl

/-- The zero behind a read that fills the buffer is outside of it. -/
theorem long_outside {bs : Bytes} (hnone : findSub separator (cstr bs) = none)
    (hlen : bs.length = kHTTPMaxMessage) :
    ¬Guarded (step stringToLower false) (Throughout stringToLower (Inside false) false) {}
      [.getRequest ⟨[.data bs], false, []⟩] := by
  intro h
  have hlong : kHTTPMaxHeader < bs.length := by rw [hlen]; exact kHTTPMaxHeader_lt
  have hturns := h.1 (long_happens hnone hlong hlen.le)
  have hzero := (hturns _ List.mem_cons_self).2 rfl bs rfl
  rw [List.nil_append, hlen] at hzero
  exact lt_irrefl _ hzero

/-- Both ways out of the buffer: a read in the header that fills it, and with SSL any read behind
another. -/
theorem buffer_overrun :
    ¬Guarded (step asciiLower false) (Throughout asciiLower (Inside false) false) {}
        [.getRequest ⟨[.data (List.replicate kHTTPMaxMessage 0)], false, []⟩] ∧
      ¬Guarded (step asciiLower true) (Throughout asciiLower (Inside true) true) {}
        [.getRequest ⟨[.data (bytes "GET"), .again], false, []⟩] := by
  constructor
  · refine long_outside ?_ List.length_replicate
    have hnil : cstr (List.replicate kHTTPMaxMessage 0) = [] := by
      rw [cstr, List.takeWhile_replicate]
      simp
    rw [hnil]
    rfl
  · intro h
    have hturns := h.1 (by decide +kernel)
    have hfit := (hturns _ (List.mem_cons_of_mem _ List.mem_cons_self)).1.2
    exact absurd hfit (by decide +kernel)

end Pink.Http.Buffer
