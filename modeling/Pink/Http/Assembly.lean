import Pink.Http.Announced
import Pink.Http.Forms
import Pink.Http.Targets
import Pink.Pb.Frames

/-! # A request is assembled exactly

`GetRequest` of a simple connection collects the header block in `rbuf_`. With the last byte of the
block there may come bytes of the body. From then on `header_len_` and `rbuf_pos_` bound the bytes in
`rbuf_` that are to be appended to the content, and both start at zero again whenever `rbuf_` is full.
At every moment the content, these bytes and the bytes not read yet are the body (`AtPacket`), and the
counter is the number of the bytes not read yet. So a request is dealt with once, when its last byte
has been read, and with its body as content (`assembled_once`). -/

namespace Pink.Http.Assembly

open Pink.Redis Pink.Redis.Wire Pink.Lib.Runs Pink.Http.Heads Pink.Http.Params Pink.Http.Simple
  Pink.Http.SimpleConn
open Pink.Http.Request (RequestParserStatus HTTPRequest cstr lookup findSub digitsValue)
open Pink.Pb.Conn (Recv Got answer nextRecv sub32 sub32_of_le)
open Pink.Pb.Frames (Recv.Plain nextRecv_plain tail_plain)
open Pink.Server.Threads (ReadStatus)
open Pink.Http.Handlers (asciiLower)

variable {stringToLower : Bytes → Bytes} {string2l : Bytes → ℕ → Option ℤ}

/-! ### The head -/

/-- The Content-Length of a head is written as a canonical decimal number. -/
def Canonical (h : Head stringToLower) : Prop :=
  ∀ v ∈ h.last (bytes "content-length"), ∃ n, v = decimalNat n

/-- Both parsers read lines in the same way. -/
structure Like (x : Simple.Line) (y : Request.Line) : Prop where
  method : x.req.method = y.req.method
  path : x.req.path = y.req.url
  version : x.req.version = y.req.version
  headers : x.req.headers = y.req.headers
  status : x.parseStatus = y.req.parseStatus
  key : x.paramKey = y.paramKey
  value : x.paramValue = y.paramValue

theorem headChar_like {x : Simple.Line} {y : Request.Line} (h : Like x y) (b : UInt8) :
    Like (Simple.headChar stringToLower x b) (Request.headChar stringToLower y b) := by
  obtain ⟨⟨method, path, version, headers, query, post, content⟩, status, key, value⟩ := x
  obtain ⟨⟨method', url, path', version', type, reply, query', headers', reqStatus, status', rbuf,
    remain⟩, key', value'⟩ := y
  obtain ⟨hmethod, hpath, hversion, hheaders, hstatus, hkey, hvalue⟩ := h
  dsimp only at hmethod hpath hversion hheaders hstatus hkey hvalue
  subst hmethod hpath hversion hheaders hstatus hkey hvalue
  unfold Simple.headChar Request.headChar
  cases status <;> dsimp only <;> split_ifs <;> constructor <;> rfl

theorem foldl_like {x : Simple.Line} {y : Request.Line} (h : Like x y) (line : Bytes) :
    Like (line.foldl (Simple.headChar stringToLower) x)
      (line.foldl (Request.headChar stringToLower) y) := by
  induction line generalizing x y with
  | nil => exact h
  | cons b line ih => exact ih (headChar_like h b)

theorem parseLines_like {r : Simple.Request} {st : RequestParserStatus} {q : HTTPRequest}
    (h : Like { req := r, parseStatus := st } { req := q }) (fuel : ℕ) (rest : Bytes) :
    (Simple.parseLines stringToLower fuel r st rest).headers =
      (Request.parseLines stringToLower fuel q rest).headers := by
  induction fuel generalizing r st q rest with
  | zero => exact h.headers
  | succ fuel ih =>
    rw [Simple.parseLines, Request.parseLines]
    by_cases hend : rest.length ≤ 4
    · rw [if_pos hend, if_pos hend]
      exact h.headers
    · rw [if_neg hend, if_neg hend]
      have hline := @foldl_like stringToLower _ _ h
        (rest.take (Request.findChar LF rest + 1))
      exact ih ⟨hline.method, hline.path, hline.version, hline.headers, hline.status, rfl, rfl⟩ _

/-- A name other than `host` is looked up in the headers as they were sent. -/
theorem parseGetUrl_lookup {r r' : Simple.Request} (h : Simple.parseGetUrl r = some r') {k : Bytes}
    (hk : k ≠ bytes "host") : lookup r'.headers k = lookup r.headers k := by
  have htake : lookup (takeHost r.headers).2 k = lookup r.headers k := by
    rw [takeHost]
    split
    · rfl
    · dsimp only
      rw [lookup_assign, if_neg (Ne.symm hk)]
  unfold Simple.parseGetUrl at h
  dsimp only at h
  split_ifs at h
  · obtain rfl := Option.some.inj h
    exact htake
  · rw [(simple_parseParameters _ _ _).1] at h
    obtain rfl := Option.some.inj h
    exact htake

/-- **A whole head is parsed.** -/
theorem parseHead_render (h : Head stringToLower) : ∃ r,
    parseHeadFromArray stringToLower {} h.render = some r ∧ r.content = [] ∧
      ∀ k, k ≠ bytes "host" → lookup r.headers k = h.last k := by
  have hlines : (Simple.parseLines stringToLower h.render.length {} .headerMethod h.render).headers =
      collect stringToLower [] h.fields := by
    have hlike : Like { req := {}, parseStatus := .headerMethod }
        { req := { ({} : HTTPRequest).reset with rbuf := [] } } :=
      ⟨rfl, rfl, rfl, rfl, rfl, rfl, rfl⟩
    rw [parseLines_like hlike, parseLines_render]
    rfl
  obtain ⟨r, hr, -⟩ := Targets.simple_parseGetUrl_parts
    (Simple.parseLines stringToLower h.render.length {} .headerMethod h.render)
  have hparse : parseHeadFromArray stringToLower {} h.render = some r := by
    rw [parseHeadFromArray, if_neg (not_le.mpr h.render_long), hr]
  refine ⟨r, hparse, (Forms.parseHead_body hparse).1, fun k hk => ?_⟩
  rw [parseGetUrl_lookup hr hk, hlines]
  exact lookup_collect h.fields k

theorem digitsValue_decimalNat (n : ℕ) : digitsValue (decimalNat n) = n := by
  have hnat : digitsValue (decimalNat n) = natValue (decimalNat n) := by
    rw [natValue, Nat.ofDigits_eq_foldr, List.foldr_map, List.foldr_reverse, digitsValue]
    congr 1
    funext m b
    exact Nat.add_comm _ _
  rw [hnat, natValue_decimalNat]

/-- **The value of the Content-Length header is the length of the body.** -/
theorem contentLength_render (hs : String2lSpec string2l) {h : Head stringToLower}
    (hcanon : Canonical h) (hlong : InLong h.contentLength) {r : Simple.Request}
    (hr : lookup r.headers (bytes "content-length") = h.last (bytes "content-length")) :
    contentLength string2l r = h.contentLength := by
  rw [contentLength, hr]
  rw [Head.contentLength] at hlong ⊢
  cases hlast : h.last (bytes "content-length") with
  | none => rfl
  | some v =>
    obtain ⟨n, rfl⟩ := hcanon v hlast
    rw [hlast] at hlong
    simp only [Option.elim_some, digitsValue_decimalNat] at hlong ⊢
    have haccepts : string2l (decimalNat n) (decimalNat n).length = some (n : ℤ) := by
      refine (hs.accepts _ _ _).mpr ⟨le_rfl, ?_, hlong⟩
      rw [List.take_length, decimal_natCast]
    rw [haccepts, Option.getD_some]

/-! ### Where a request stands -/

/-- The header block is not complete yet. -/
structure AtHeader (h : Head stringToLower) (body : Bytes) (c : SimpleHTTPConn) (input : Bytes) :
    Prop where
  status : c.connStatus = .header
  bytes : c.rbuf ++ input = h.render ++ body
  part : c.rbuf.length < h.render.length

/-- **The content, the bytes from `header_len_` to `rbuf_pos_` and the bytes not read yet are the
body.** -/
structure Holds (body : Bytes) (c : SimpleHTTPConn) (input : Bytes) : Prop where
  status : c.connStatus = .packet
  header : c.headerLen ≤ c.rbuf.length
  bytes : c.request.content ++ c.rbuf.drop c.headerLen ++ input = body
  remain : c.remainPacketLen = input.length

/-- The body is being collected, and there is room for some of it. -/
structure AtPacket (body : Bytes) (c : SimpleHTTPConn) (input : Bytes) : Prop where
  holds : Holds body c input
  room : c.rbuf.length < kHTTPMaxMessage

structure AtComplete (body : Bytes) (c : SimpleHTTPConn) (input : Bytes) : Prop where
  status : c.connStatus = .complete
  content : c.request.content = body
  input : input = []

/-- The request has been dealt with. -/
structure AtEnd (c : SimpleHTTPConn) (input : Bytes) : Prop where
  status : c.connStatus = .header
  rbuf : c.rbuf = []
  input : input = []

/-- Where a call leaves a request that it does not complete. -/
inductive Open (h : Head stringToLower) (body : Bytes) (c : SimpleHTTPConn) (input : Bytes) : Prop
  | header (hat : AtHeader h body c input)
  | packet (hat : AtPacket body c input) (hin : input ≠ [])

theorem Open.input_ne_nil {h : Head stringToLower} {body : Bytes} {c : SimpleHTTPConn}
    {input : Bytes} (hopen : Open h body c input) : input ≠ [] := by
  cases hopen with
  | packet hat hin => exact hin
  | header hat =>
    rintro rfl
    have hlen := congrArg List.length hat.bytes
    have hpart := hat.part
    rw [List.append_nil, List.length_append] at hlen
    omega

theorem Open.same {h : Head stringToLower} {body : Bytes} {c c' : SimpleHTTPConn} {input : Bytes}
    (hopen : Open h body c input) (hsame : SameInput c c') : Open h body c' input := by
  obtain ⟨hstatus, hrbuf, hheader, hremain, hrequest⟩ := hsame
  cases hopen with
  | header hat =>
    exact .header ⟨hstatus.trans hat.status, by rw [hrbuf, hat.bytes], by rw [hrbuf]; exact hat.part⟩
  | packet hat hin =>
    obtain ⟨⟨h1, h2, h3, h4⟩, hroom⟩ := hat
    rw [← hrbuf] at h2 h3 hroom
    rw [← hheader] at h2 h3
    rw [← hrequest] at h3
    exact .packet ⟨⟨hstatus.trans h1, h2, h3, hremain.trans h4⟩, hroom⟩ hin

/-! ### The turns of a call -/

theorem turns_of_isSome {e : Env} {fuel : ℕ} {x : Call} (h : x.status.isSome) :
    turns stringToLower string2l e fuel x = x := by
  cases fuel with
  | zero => rfl
  | succ fuel => rw [turns, if_pos h]

theorem turns_succ {e : Env} {fuel : ℕ} {x : Call} (h : x.status = none) :
    turns stringToLower string2l e (fuel + 1) x =
      turns stringToLower string2l e fuel (turn stringToLower string2l e x) := by
  rw [turns, if_neg (by simp [h])]

/-- A read from a peer that does not close, when there is room. -/
theorem read_plain {w : World} {count : ℕ} {r : Recv} (hr : Recv.Plain r) (hc : 0 < count) :
    (w.read count r = (w, .eagain) ∧ (r = .eagain ∨ w.input = [])) ∨
      ∃ bs rest, w.read count r =
          ({ w with conn := { w.conn with rbuf := w.conn.rbuf ++ bs }, input := rest }, .bytes bs) ∧
        r ≠ .eagain ∧ bs ≠ [] ∧ bs.length ≤ count ∧ w.input = bs ++ rest := by
  have h0 : ¬count = 0 := by omega
  rcases read_cases w count r with ⟨g, hread, hg⟩ | ⟨bs, hread, hne, hle, t, ht⟩
  · refine .inl ?_
    have hans : answer w.input count r = g := by
      have hsnd := congrArg Prod.snd hread
      rw [World.read] at hsnd
      split at hsnd
      · exact absurd hsnd.symm (hg _)
      · exact hsnd
    unfold answer at hans
    rw [if_neg h0] at hans
    cases r with
    | closed => exact hr.elim
    | failed => exact hr.elim
    | eagain => exact ⟨by rw [hread, ← hans], .inl rfl⟩
    | data k =>
      dsimp only at hans
      split_ifs at hans with hin
      · exact ⟨by rw [hread, ← hans], .inr hin⟩
      · exact absurd hans.symm (hg _)
  · refine .inr ⟨bs, t, by rw [hread, ← ht, List.drop_left], ?_, hne, hle, ht.symm⟩
    rintro rfl
    have hnone : w.read count .eagain = (w, .eagain) := by simp [World.read, answer, h0]
    rw [hnone] at hread
    exact absurd (congrArg Prod.snd hread) (by simp)

theorem parseBody_content (r : Simple.Request) (data : Bytes) :
    ∃ r', parseBodyFromArray r data = some r' ∧ r'.content = r.content ++ data := by
  unfold parseBodyFromArray
  dsimp only
  split_ifs
  · rw [(simple_parseParameters _ _ _).2]
    exact ⟨_, rfl, rfl⟩
  · exact ⟨_, rfl, rfl⟩
  · exact ⟨_, rfl, rfl⟩

/-- **After a read in the body** the window is appended when it is complete or `rbuf_` is full. -/
theorem packetGot_on {body : Bytes} {x : Call} (h : Holds body x.w.conn x.w.input)
    (hroom : x.w.conn.rbuf.length ≤ kHTTPMaxMessage) :
    ∃ c, packetGot x = { x with w := { x.w with conn := c } } ∧
      (AtComplete body c x.w.input ∨ AtPacket body c x.w.input ∧ x.w.input ≠ []) := by
  obtain ⟨r, hr, hcontent⟩ := parseBody_content x.w.conn.request
    (x.w.conn.rbuf.drop x.w.conn.headerLen)
  have happend : appendRequestBody x.w.conn = { x.w.conn with request := r } := by
    rw [appendRequestBody, hr, Option.getD_some]
  have hbytes : r.content ++ x.w.input = body := by rw [hcontent, h.bytes]
  rw [packetGot]
  dsimp only
  rw [happend]
  by_cases hzero : x.w.conn.remainPacketLen = 0
  · have hin : x.w.input = [] := List.length_eq_zero_iff.mp (h.remain.symm.trans hzero)
    rw [if_pos (.inl hzero), if_pos hzero]
    rw [hin, List.append_nil] at hbytes
    exact ⟨_, rfl, .inl ⟨rfl, hbytes, hin⟩⟩
  · have hin : x.w.input ≠ [] := by
      intro hin
      exact hzero (h.remain.trans (by rw [hin, List.length_nil]))
    by_cases hfull : x.w.conn.rbuf.length = kHTTPMaxMessage
    · -- the next bytes are read to the beginning of `rbuf_`
      rw [if_pos (.inr hfull), if_neg hzero]
      have hnext : r.content ++ ([] : Bytes).drop 0 ++ x.w.input = body := by
        rw [List.drop_nil, List.append_nil, hbytes]
      have hempty : ([] : Bytes).length < kHTTPMaxMessage := by decide
      exact ⟨_, rfl, .inr ⟨⟨⟨h.status, le_rfl, hnext, h.remain⟩, hempty⟩, hin⟩⟩
    · rw [if_neg (not_or.mpr ⟨hzero, hfull⟩)]
      exact ⟨x.w.conn, rfl, .inr ⟨⟨h, lt_of_le_of_ne hroom hfull⟩, hin⟩⟩

theorem packetCount_pos {body : Bytes} {c : SimpleHTTPConn} {input : Bytes}
    (h : AtPacket body c input) (hpos : 0 < c.remainPacketLen) :
    0 < packetCount c ∧ packetCount c ≤ c.remainPacketLen ∧
      c.rbuf.length + packetCount c ≤ kHTTPMaxMessage := by
  have hroom := h.room
  have hsub : sub32 kHTTPMaxMessage c.rbuf.length = kHTTPMaxMessage - c.rbuf.length :=
    sub32_of_le hroom.le (by decide)
  rw [packetCount, hsub]
  split_ifs <;> omega

/-- A call ends with the request dealt with, if it is complete. -/
inductive Ends (h : Head stringToLower) (body : Bytes) (x x' : Call) : Prop
  | half (hst : x'.status = some .readHalf) (hd : x'.dealt = x.dealt)
      (hat : Open h body x'.w.conn x'.w.input)
  | all (r : Simple.Request) (hr : r.content = body) (hst : x'.status = some .readAll)
      (hd : x'.dealt = x.dealt ++ [r]) (hat : AtEnd x'.w.conn x'.w.input)

/-- What a call that is resumed with some reads to come does to the input and the record. -/
structure Consumes (x x' : Call) : Prop where
  calls : x'.w.calls = x.w.calls
  le : x'.w.input.length ≤ x.w.input.length
  lt : nextRecv x.recvs ≠ .eagain → x.w.input ≠ [] → x'.w.input.length < x.w.input.length

/-- A turn that does not end the call has read something. -/
structure Reads (x y : Call) : Prop where
  calls : y.w.calls = x.w.calls
  dealt : y.dealt = x.dealt
  recvs : y.recvs = x.recvs.tail
  fewer : y.recvs.length < x.recvs.length
  input : y.w.input.length < x.w.input.length

theorem Reads.consumes {x y z : Call} (hr : Reads x y) (h : Consumes y z) : Consumes x z :=
  ⟨h.calls.trans hr.calls, h.le.trans hr.input.le, fun _ _ => h.le.trans_lt hr.input⟩

theorem Reads.ends {h : Head stringToLower} {body : Bytes} {x y z : Call} (hr : Reads x y)
    (hends : Ends h body y z) : Ends h body x z := by
  cases hends with
  | half hst hd hat => exact .half hst (hd.trans hr.dealt) hat
  | all r hcontent hst hd hat => exact .all r hcontent hst (by rw [hd, hr.dealt]) hat

theorem length_tail_lt {rs : List Recv} (h : nextRecv rs ≠ .eagain) :
    rs.tail.length < rs.length := by
  cases rs with
  | nil => exact absurd rfl h
  | cons r rs => exact Nat.lt_succ_self _

theorem complete_ends {e : Env} {h : Head stringToLower} {body : Bytes} {x : Call} (fuel : ℕ)
    (hst : x.status = none) (hat : AtComplete body x.w.conn x.w.input) :
    Ends h body x (turns stringToLower string2l e (fuel + 1) x) ∧
      Consumes x (turns stringToLower string2l e (fuel + 1) x) := by
  have hturn : turn stringToLower string2l e x = completeTurn x e.deal := by rw [turn, hat.status]
  rw [turns_succ hst, hturn, turns_of_isSome rfl]
  refine ⟨.all _ hat.content rfl rfl ⟨rfl, rfl, hat.input⟩, rfl, le_rfl, fun _ hin => ?_⟩
  exact absurd hat.input hin

/-- **A turn in the body.** -/
theorem packet_turn {e : Env} {body : Bytes} {x : Call} (hst : x.status = none)
    (hrs : ∀ r ∈ x.recvs, Recv.Plain r) (hat : AtPacket body x.w.conn x.w.input)
    (hin : x.w.input ≠ []) :
    (turn stringToLower string2l e x =
        { x with recvs := x.recvs.tail, status := some .readHalf } ∧ nextRecv x.recvs = .eagain) ∨
      (Reads x (turn stringToLower string2l e x) ∧
        (turn stringToLower string2l e x).status = none ∧
        (AtComplete body (turn stringToLower string2l e x).w.conn
            (turn stringToLower string2l e x).w.input ∨
          AtPacket body (turn stringToLower string2l e x).w.conn
              (turn stringToLower string2l e x).w.input ∧
            (turn stringToLower string2l e x).w.input ≠ [])) := by
  have hpos : 0 < x.w.conn.remainPacketLen := by
    rw [hat.holds.remain]
    exact List.length_pos_iff.mpr hin
  obtain ⟨hcount, hremain, hroom⟩ := packetCount_pos hat hpos
  have hturn : turn stringToLower string2l e x = packetTurn x := by rw [turn, hat.holds.status]
  rw [hturn, packetTurn, if_pos hpos]
  rcases read_plain (w := x.w) (nextRecv_plain hrs) hcount with
    ⟨hread, hnone⟩ | ⟨bs, rest, hread, hne, hbs, hle, hinput⟩
  · rw [hread]
    exact .inl ⟨rfl, hnone.resolve_right hin⟩
  · rw [hread]
    dsimp only
    have hlen : x.w.input.length = bs.length + rest.length := by rw [hinput, List.length_append]
    have hholds : Holds body
        { x.w.conn with
          rbuf := x.w.conn.rbuf ++ bs
          remainPacketLen := subSize x.w.conn.remainPacketLen bs.length } rest := by
      refine ⟨hat.holds.status, ?_, ?_, ?_⟩
      · exact hat.holds.header.trans (by simp)
      · have hbytes := hat.holds.bytes
        rw [hinput] at hbytes
        dsimp only
        rw [List.drop_append_of_le_length hat.holds.header, ← hbytes]
        simp only [List.append_assoc]
      · have hcounter := hat.holds.remain
        dsimp only
        rw [subSize_of_le (hle.trans hremain)]
        omega
    obtain ⟨c, hgot, hnext⟩ := packetGot_on (x := { x with
        w := { x.w with
          conn := { x.w.conn with
            rbuf := x.w.conn.rbuf ++ bs
            remainPacketLen := subSize x.w.conn.remainPacketLen bs.length }
          input := rest }
        recvs := x.recvs.tail }) hholds (by simp only [List.length_append]; omega)
    rw [hgot]
    have hbpos := List.length_pos_iff.mpr hbs
    exact .inr ⟨⟨rfl, rfl, rfl, length_tail_lt hne, by dsimp only; omega⟩, hst, hnext⟩

theorem packet_ends {e : Env} {h : Head stringToLower} {body : Bytes} {x : Call} {fuel : ℕ}
    (hst : x.status = none) (hrs : ∀ r ∈ x.recvs, Recv.Plain r)
    (hat : AtPacket body x.w.conn x.w.input) (hin : x.w.input ≠ [])
    (hfuel : x.recvs.length + 2 ≤ fuel) :
    Ends h body x (turns stringToLower string2l e fuel x) ∧
      Consumes x (turns stringToLower string2l e fuel x) := by
  induction fuel generalizing x with
  | zero => omega
  | succ fuel ih =>
    rw [turns_succ hst]
    rcases @packet_turn stringToLower string2l e body x hst hrs hat hin with
      ⟨hturn, hnone⟩ | ⟨hreads, hst', hat' | ⟨hat', hin'⟩⟩
    · rw [hturn, turns_of_isSome rfl]
      exact ⟨.half rfl rfl (.packet hat hin), rfl, le_rfl, fun hne => absurd hnone hne⟩
    · obtain ⟨fuel, rfl⟩ := Nat.exists_eq_add_of_le' (by omega : 1 ≤ fuel)
      obtain ⟨hends, hcons⟩ := @complete_ends stringToLower string2l e h body _ fuel hst' hat'
      exact ⟨hreads.ends hends, hreads.consumes hcons⟩
    · have hfewer := hreads.fewer
      obtain ⟨hends, hcons⟩ := ih hst' (by rw [hreads.recvs]; exact tail_plain hrs) hat' hin'
        (by omega)
      exact ⟨hreads.ends hends, hreads.consumes hcons⟩

/-- Without bytes to come, the body is complete. -/
theorem whole_ends {e : Env} {h : Head stringToLower} {body : Bytes} {x : Call} (fuel : ℕ)
    (hst : x.status = none) (hat : AtPacket body x.w.conn x.w.input) (hin : x.w.input = []) :
    Ends h body x (turns stringToLower string2l e (fuel + 2) x) ∧
      Consumes x (turns stringToLower string2l e (fuel + 2) x) := by
  have hzero : ¬0 < x.w.conn.remainPacketLen := by rw [hat.holds.remain, hin]; simp
  have hturn : turn stringToLower string2l e x = packetGot x := by
    rw [turn, hat.holds.status]
    dsimp only
    rw [packetTurn, if_neg hzero]
  obtain ⟨c, hgot, hnext⟩ := packetGot_on hat.holds hat.room.le
  have hcomplete : AtComplete body c x.w.input := hnext.resolve_right fun hmore => hmore.2 hin
  rw [turns_succ hst, hturn, hgot]
  obtain ⟨hends, hcons⟩ := @complete_ends stringToLower string2l e h body
    { x with w := { x.w with conn := c } } fuel hst hcomplete
  refine ⟨?_, hcons.calls, hcons.le, hcons.lt⟩
  cases hends with
  | half hst hd hat => exact .half hst hd hat
  | all r hcontent hst hd hat => exact .all r hcontent hst hd hat

/-- A finished request is left alone. -/
theorem end_ends {e : Env} {x : Call} (fuel : ℕ) (hst : x.status = none)
    (hrs : ∀ r ∈ x.recvs, Recv.Plain r) (hat : AtEnd x.w.conn x.w.input) :
    turns stringToLower string2l e (fuel + 1) x =
      { x with recvs := x.recvs.tail, status := some .readHalf } := by
  have hcount : 0 < sub32 kHTTPMaxHeader x.w.conn.rbuf.length := by
    rw [hat.rbuf]
    exact (by decide +kernel : 0 < sub32 kHTTPMaxHeader 0)
  have hturn : turn stringToLower string2l e x =
      { x with recvs := x.recvs.tail, status := some .readHalf } := by
    rw [turn, hat.status]
    dsimp only
    rw [headerTurn]
    rcases read_plain (w := x.w) (nextRecv_plain hrs) hcount with
      ⟨hread, -⟩ | ⟨bs, rest, -, -, hbs, -, hinput⟩
    · rw [hread]
    · rw [hat.input] at hinput
      exact absurd (List.append_eq_nil_iff.mp hinput.symm).1 hbs
  rw [turns_succ hst, hturn, turns_of_isSome rfl]

/-- The counter when `came` bytes have come behind the header block and `more` are to come. -/
theorem remainOf_exact {came more : ℕ} (hlong : InLong (came + more : ℕ)) (len : ℕ) :
    remainOf (came + more : ℕ) len (len + came) = more := by
  have hmax := hlong.2
  unfold LONG_MAX at hmax
  have hsize : sizeT (came + more : ℕ) = came + more := by
    rw [sizeT_of_nonneg (by omega) (by omega), Int.toNat_natCast]
  rw [remainOf, hsize]
  split_ifs with hmore
  · rw [subSize_of_le (by omega)]
    omega
  · omega

/-- **The read that completes the header block.** -/
theorem headerGot_whole (hs : String2lSpec string2l) {h : Head stringToLower}
    (hcanon : Canonical h) {x : Call} {came : Bytes}
    (hst : x.status = none) (hrbuf : x.w.conn.rbuf = h.render ++ came)
    (hlen : h.contentLength = (came ++ x.w.input).length) (hlong : InLong h.contentLength)
    (hroom : x.w.conn.rbuf.length ≤ kHTTPMaxHeader) :
    ∃ c st, headerGot stringToLower string2l x =
        { x with w := { x.w with conn := c }, status := st } ∧
      AtPacket (came ++ x.w.input) c x.w.input ∧
      (st = none ∨ st = some .readHalf ∧ x.w.input ≠ []) := by
  obtain ⟨i, hi, hblock⟩ := findSub_whole h came
  obtain ⟨r, hparse, hcontent, hlookup⟩ := parseHead_render h
  have hval := contentLength_render hs hcanon hlong (hlookup _ (by decide +kernel))
  have hremain : remainOf (contentLength string2l r) h.render.length x.w.conn.rbuf.length =
      x.w.input.length := by
    rw [List.length_append] at hlen
    rw [hlen] at hlong
    rw [hval, hlen, hrbuf, List.length_append]
    exact remainOf_exact hlong _
  have hat : AtPacket (came ++ x.w.input) (x.w.conn.built string2l h.render.length r) x.w.input := by
    have hmax : x.w.conn.rbuf.length < kHTTPMaxMessage := hroom.trans_lt (by decide)
    refine ⟨⟨rfl, ?_, ?_, hremain⟩, hmax⟩
    · show h.render.length ≤ x.w.conn.rbuf.length
      rw [hrbuf, List.length_append]
      exact Nat.le_add_right _ _
    · show r.content ++ x.w.conn.rbuf.drop h.render.length ++ x.w.input = _
      rw [hcontent, hrbuf, List.drop_left, List.nil_append]
  rw [← hrbuf] at hi
  have hgot := @headerGot_some stringToLower string2l x i r hi
    (by rw [hblock, hrbuf, List.take_left]; exact hparse)
  rw [hblock] at hgot
  rw [hgot]
  split_ifs with hexpect hpos
  · -- the interim reply is sent before the body is read
    refine ⟨_, _, rfl, ⟨⟨rfl, hat.holds.2, hat.holds.3, hat.holds.4⟩, hat.room⟩, .inr ⟨rfl, ?_⟩⟩
    rw [hat.holds.remain] at hpos
    exact List.length_pos_iff.mp hpos
  · exact ⟨_, _, rfl, ⟨⟨rfl, hat.holds.2, hat.holds.3, hat.holds.4⟩, hat.room⟩, .inl rfl⟩
  · exact ⟨_, _, rfl, hat, .inl hst⟩

/-- **A turn in the header.** -/
theorem header_turn {e : Env} (hs : String2lSpec string2l) {h : Head stringToLower} {body : Bytes}
    (hcanon : Canonical h) (hhead : h.render.length ≤ kHTTPMaxHeader)
    (hbody : body.length = h.contentLength) (hlong : InLong body.length) {x : Call}
    (hst : x.status = none) (hrs : ∀ r ∈ x.recvs, Recv.Plain r)
    (hat : AtHeader h body x.w.conn x.w.input) :
    (turn stringToLower string2l e x =
        { x with recvs := x.recvs.tail, status := some .readHalf } ∧ nextRecv x.recvs = .eagain) ∨
      (Reads x (turn stringToLower string2l e x) ∧
        ((turn stringToLower string2l e x).status = none ∧
            AtHeader h body (turn stringToLower string2l e x).w.conn
              (turn stringToLower string2l e x).w.input ∨
          AtPacket body (turn stringToLower string2l e x).w.conn
              (turn stringToLower string2l e x).w.input ∧
            ((turn stringToLower string2l e x).status = none ∨
              (turn stringToLower string2l e x).status = some .readHalf ∧
                (turn stringToLower string2l e x).w.input ≠ []))) := by
  have hpart := hat.part
  have hsub : sub32 kHTTPMaxHeader x.w.conn.rbuf.length = kHTTPMaxHeader - x.w.conn.rbuf.length :=
    sub32_of_le (by omega) (by decide)
  have hturn : turn stringToLower string2l e x = headerTurn stringToLower string2l x := by
    rw [turn, hat.status]
  have hcount : 0 < kHTTPMaxHeader - x.w.conn.rbuf.length := by omega
  rw [hturn, headerTurn, hsub]
  rcases read_plain (w := x.w) (nextRecv_plain hrs) hcount with
    ⟨hread, hnone⟩ | ⟨bs, rest, hread, hne, hbs, hle, hinput⟩
  · rw [hread]
    exact .inl ⟨rfl, hnone.resolve_right (Open.header hat).input_ne_nil⟩
  · rw [hread]
    dsimp only
    have hbytes : (x.w.conn.rbuf ++ bs) ++ rest = h.render ++ body := by
      rw [List.append_assoc, ← hinput, hat.bytes]
    have hfewer : rest.length < x.w.input.length := by
      have hpos := List.length_pos_iff.mpr hbs
      rw [hinput, List.length_append]
      omega
    refine .inr ?_
    by_cases hmore : (x.w.conn.rbuf ++ bs).length < h.render.length
    · have hpre : x.w.conn.rbuf ++ bs <+: h.render :=
        List.prefix_of_prefix_length_le (List.prefix_append _ rest)
          (hbytes ▸ List.prefix_append _ _) hmore.le
      have hgot : ∀ y : Call, y.w.conn.rbuf = x.w.conn.rbuf ++ bs →
          headerGot stringToLower string2l y = y := by
        intro y hy
        rw [headerGot, hy, ← separator, findSub_part h hpre hmore]
      rw [hgot _ rfl]
      exact ⟨⟨rfl, rfl, rfl, length_tail_lt hne, hfewer⟩, .inl ⟨hst, hat.status, hbytes, hmore⟩⟩
    · obtain ⟨came, hcame⟩ : h.render <+: x.w.conn.rbuf ++ bs :=
        List.prefix_of_prefix_length_le (hbytes ▸ List.prefix_append _ _)
          (List.prefix_append _ rest) (not_lt.mp hmore)
      obtain rfl : body = came ++ rest := by
        rw [← hcame, List.append_assoc] at hbytes
        exact (List.append_cancel_left hbytes).symm
      rw [hbody] at hlong
      obtain ⟨c, st, hgot, hpacket, hend⟩ := headerGot_whole hs hcanon
        (x := { x with
          w := { x.w with
            conn := { x.w.conn with rbuf := x.w.conn.rbuf ++ bs }, input := rest }
          recvs := x.recvs.tail })
        hst hcame.symm hbody.symm hlong (by dsimp only; rw [List.length_append]; omega)
      rw [hgot]
      exact ⟨⟨rfl, rfl, rfl, length_tail_lt hne, hfewer⟩, .inr ⟨hpacket, hend⟩⟩

theorem header_ends {e : Env} (hs : String2lSpec string2l) {h : Head stringToLower} {body : Bytes}
    (hcanon : Canonical h) (hhead : h.render.length ≤ kHTTPMaxHeader)
    (hbody : body.length = h.contentLength) (hlong : InLong body.length) {x : Call} {fuel : ℕ}
    (hst : x.status = none) (hrs : ∀ r ∈ x.recvs, Recv.Plain r)
    (hat : AtHeader h body x.w.conn x.w.input) (hfuel : x.recvs.length + 2 ≤ fuel) :
    Ends h body x (turns stringToLower string2l e fuel x) ∧
      Consumes x (turns stringToLower string2l e fuel x) := by
  induction fuel generalizing x with
  | zero => omega
  | succ fuel ih =>
    rw [turns_succ hst]
    rcases header_turn (e := e) hs hcanon hhead hbody hlong hst hrs hat with
      ⟨hturn, hnone⟩ | ⟨hreads, ⟨hst', hat'⟩ | ⟨hat', hst' | ⟨hst', hin'⟩⟩⟩
    · rw [hturn, turns_of_isSome rfl]
      exact ⟨.half rfl rfl (.header hat), rfl, le_rfl, fun hne => absurd hnone hne⟩
    · have hfewer := hreads.fewer
      obtain ⟨hends, hcons⟩ := ih hst' (by rw [hreads.recvs]; exact tail_plain hrs) hat' (by omega)
      exact ⟨hreads.ends hends, hreads.consumes hcons⟩
    · have hfewer := hreads.fewer
      by_cases hin' : (turn stringToLower string2l e x).w.input = []
      · obtain ⟨fuel, rfl⟩ := Nat.exists_eq_add_of_le' (by omega : 2 ≤ fuel)
        obtain ⟨hends, hcons⟩ := whole_ends (e := e) (h := h) fuel hst' hat' hin'
        exact ⟨hreads.ends hends, hreads.consumes hcons⟩
      · have hfuel' : (turn stringToLower string2l e x).recvs.length + 2 ≤ fuel := by omega
        obtain ⟨hends, hcons⟩ := packet_ends (e := e) (h := h) hst'
          (by rw [hreads.recvs]; exact tail_plain hrs) hat' hin' hfuel'
        exact ⟨hreads.ends hends, hreads.consumes hcons⟩
    · rw [turns_of_isSome (by rw [hst']; rfl)]
      exact ⟨.half hst' hreads.dealt (.packet hat' hin'), hreads.calls, hreads.input.le,
        fun _ _ => hreads.input⟩

/-- **A call of `GetRequest`.** -/
theorem getRequest_ends {e : Env} (hs : String2lSpec string2l) {h : Head stringToLower}
    {body : Bytes} (hcanon : Canonical h) (hhead : h.render.length ≤ kHTTPMaxHeader)
    (hbody : body.length = h.contentLength) (hlong : InLong body.length) {w : World}
    (hrs : ∀ r ∈ e.recvs, Recv.Plain r) (hopen : Open h body w.conn w.input) :
    Ends h body { w := w, recvs := e.recvs }
        (turns stringToLower string2l e (e.recvs.length + 3) { w := w, recvs := e.recvs }) ∧
      Consumes { w := w, recvs := e.recvs }
        (turns stringToLower string2l e (e.recvs.length + 3) { w := w, recvs := e.recvs }) := by
  cases hopen with
  | header hat =>
    exact header_ends hs hcanon hhead hbody hlong rfl hrs hat (Nat.le_succ _)
  | packet hat hin => exact packet_ends rfl hrs hat hin (Nat.le_succ _)

/-! ### The run -/

/-- The peer does not close; what is sent, and when, is arbitrary. -/
def Op.Plain : Op → Prop
  | .getRequest e => ∀ r ∈ e.recvs, Recv.Plain r
  | .sendReply _ => True

instance : DecidablePred Op.Plain := fun op => by
  cases op <;> unfold Op.Plain <;> infer_instance

/-- Calls that return `kReadHalf` and do not deal with a request. -/
def halves (n : ℕ) : List (Option ReadStatus × List Simple.Request) :=
  List.replicate n (some .readHalf, [])

/-- **What the calls since `w₀` have made of a request**: as long as there are bytes to be read, they
have not dealt with it; then the call that read the last of them has, which returned `kReadAll`, and the
connection is ready for the next request. -/
inductive Assembled (body : Bytes) (w₀ w : World) : Prop
  | partly (n : ℕ) (hinput : w.input ≠ []) (hcalls : w.calls = w₀.calls ++ halves n)
  | whole (n m : ℕ) (r : Simple.Request) (hcontent : r.content = body) (hinput : w.input = [])
      (hcalls : w.calls = w₀.calls ++ halves n ++ (some .readAll, [r]) :: halves m)
      (hstatus : w.conn.connStatus = .header) (hrbuf : w.conn.rbuf = [])

/-- What every event keeps. -/
inductive Inv (h : Head stringToLower) (body : Bytes) (w₀ w : World) : Prop
  | partly (n : ℕ) (hat : Open h body w.conn w.input) (hcalls : w.calls = w₀.calls ++ halves n)
  | whole (n m : ℕ) (r : Simple.Request) (hcontent : r.content = body)
      (hat : AtEnd w.conn w.input)
      (hcalls : w.calls = w₀.calls ++ halves n ++ (some .readAll, [r]) :: halves m)

theorem Inv.assembled {h : Head stringToLower} {body : Bytes} {w₀ w : World}
    (hinv : Inv h body w₀ w) : Assembled body w₀ w := by
  cases hinv with
  | partly n hat hcalls => exact .partly n hat.input_ne_nil hcalls
  | whole n m r hcontent hat hcalls =>
    exact .whole n m r hcontent hat.input hcalls hat.status hat.rbuf

theorem halves_succ (n : ℕ) : halves (n + 1) = halves n ++ [(some .readHalf, [])] :=
  List.replicate_succ'

theorem getRequest_inv (hs : String2lSpec string2l) {h : Head stringToLower} {body : Bytes}
    (hcanon : Canonical h) (hhead : h.render.length ≤ kHTTPMaxHeader)
    (hbody : body.length = h.contentLength) (hlong : InLong body.length) {w₀ w : World} {e : Env}
    (hrs : ∀ r ∈ e.recvs, Recv.Plain r) (hinv : Inv h body w₀ w) :
    Inv h body w₀ (getRequest stringToLower string2l w e) := by
  cases hinv with
  | partly n hat hcalls =>
    obtain ⟨hends, hcons⟩ := getRequest_ends (e := e) hs hcanon hhead hbody hlong hrs hat
    rw [getRequest]
    generalize turns stringToLower string2l e _ _ = x at hends hcons
    have hsame : x.w.calls = w₀.calls ++ halves n := hcons.calls.trans hcalls
    cases hends with
    | half hst hd hat =>
      refine .partly (n + 1) hat ?_
      dsimp only
      rw [hsame, hst, hd, halves_succ, List.append_assoc]
    | all r hcontent hst hd hat =>
      refine .whole n 0 r hcontent hat ?_
      dsimp only
      rw [hsame, hst, hd]
      rfl
  | whole n m r hcontent hat hcalls =>
    have hend := @end_ends stringToLower string2l e { w := w, recvs := e.recvs }
      (e.recvs.length + 2) rfl hrs hat
    rw [getRequest, hend]
    refine .whole n (m + 1) r hcontent hat ?_
    dsimp only
    rw [hcalls, halves_succ, List.append_assoc, List.cons_append, List.append_assoc]

theorem step_inv (hs : String2lSpec string2l) {h : Head stringToLower} {body : Bytes}
    (hcanon : Canonical h) (hhead : h.render.length ≤ kHTTPMaxHeader)
    (hbody : body.length = h.contentLength) (hlong : InLong body.length) {w₀ w : World} {op : Op}
    (hop : Op.Plain op) (hinv : Inv h body w₀ w) :
    Inv h body w₀ (step stringToLower string2l w op) := by
  rw [step]
  cases hstep : stepOption stringToLower string2l w op with
  | none => exact hinv
  | some w' =>
    rw [Option.getD_some]
    cases op with
    | getRequest e =>
      obtain ⟨-, rfl⟩ := stepOption_getRequest.mp hstep
      exact getRequest_inv hs hcanon hhead hbody hlong hop hinv
    | sendReply outs =>
      obtain ⟨-, hsame, hinput, hcalls'⟩ := stepOption_sendReply hstep
      cases hinv with
      | partly n hat hcalls =>
        exact .partly n (hinput ▸ hat.same hsame) (hcalls'.trans hcalls)
      | whole n m r hcontent hat hcalls =>
        refine .whole n m r hcontent ⟨?_, ?_, hinput.trans hat.input⟩ (hcalls'.trans hcalls)
        · exact hsame.status.trans hat.status
        · exact hsame.rbuf.trans hat.rbuf

/-- **A request is assembled exactly.** A connection that waits for a request is sent a head of at most
`kHTTPMaxHeader` bytes with a canonical Content-Length, and a body of this length. Whatever the reads
bring, with `EAGAIN` in between, and whatever is sent meanwhile, the request is dealt with once, by the
call that reads the last byte; this call returns `kReadAll`, and the content is the body. A call of
`GetRequest` that finds bytes reads some of them, so the whole request is read. -/
theorem assembled_once (stringToLower : Bytes → Bytes) {string2l : Bytes → ℕ → Option ℤ}
    (hs : String2lSpec string2l) (h : Head stringToLower) (hcanon : Canonical h)
    (hhead : h.render.length ≤ kHTTPMaxHeader) (body : Bytes)
    (hbody : body.length = h.contentLength) (hlong : InLong body.length) (w₀ : World)
    (hstatus : w₀.conn.connStatus = .header) (hrbuf : w₀.conn.rbuf = [])
    (hinput : w₀.input = h.render ++ body) (ops : List Op) (hops : ∀ op ∈ ops, Op.Plain op) :
    let w := run (step stringToLower string2l) w₀ ops
    Assembled body w₀ w ∧
      ∀ e, Op.Plain (.getRequest e) → nextRecv e.recvs ≠ .eagain → w.input ≠ [] →
        (getRequest stringToLower string2l w e).input.length < w.input.length := by
  have hfirst : Inv h body w₀ w₀ := by
    refine .partly 0 (.header ⟨hstatus, ?_, ?_⟩) (List.append_nil _).symm
    · rw [hrbuf, hinput, List.nil_append]
    · rw [hrbuf]
      exact h.render_pos
  have hinv : Inv h body w₀ (run (step stringToLower string2l) w₀ ops) := by
    refine run_inv_of_forall (fun w => Inv h body w₀ w) (fun w op hw hop => ?_) hfirst hops
    exact step_inv hs hcanon hhead hbody hlong hop hw
  refine ⟨hinv.assembled, fun e he hne hin => ?_⟩
  cases hinv with
  | partly n hat hcalls =>
    exact (getRequest_ends (e := e) hs hcanon hhead hbody hlong he hat).2.lt hne hin
  | whole n m r hcontent hat hcalls => exact absurd hat.input hin

/-- A head that asks for the interim reply. -/
def interimHead : Head asciiLower where
  method := bytes "POST"
  url := bytes "/upload"
  version := bytes "HTTP/1.0"
  fields := [(bytes "Content-Length", bytes "5"), (bytes "Expect", bytes "100-continue")]
  method_free := by decide +kernel
  url_free := by decide +kernel
  version_free := by decide +kernel
  name_free := by decide +kernel
  value_free := by decide +kernel
  length_ok := by decide +kernel

theorem canonical_interimHead : Canonical interimHead := by
  have hlast : interimHead.last (bytes "content-length") = some (decimalNat 5) := by decide +kernel
  intro v hv
  rw [hlast] at hv
  exact ⟨5, (Option.some.inj hv).symm⟩

/-- The head comes in two reads, then the interim reply is sent, then the body comes in two. -/
def interimRun : List Op :=
  [.getRequest ⟨[.data 29, .data 35], {}⟩, .sendReply [.wrote 99], .getRequest ⟨[.data 1], {}⟩,
    .getRequest ⟨[.eagain], {}⟩, .getRequest ⟨[.data 9], {}⟩]

theorem assembled_once_interim :
    Assembled (bytes "hello") { input := interimHead.render ++ bytes "hello" }
      (run (step asciiLower Wire.string2l) { input := interimHead.render ++ bytes "hello" }
        interimRun) :=
  (assembled_once asciiLower string2l_spec interimHead canonical_interimHead (by decide +kernel)
    (bytes "hello") (by decide +kernel) (by decide +kernel) _ rfl rfl rfl interimRun
    (by decide)).1

end Pink.Http.Assembly
