import Pink.Pb.Conn

/-! # Frames are put together exactly

However the kernel divides the stream and whenever the cron task shrinks the buffer, `GetRequest`
deals with the messages of the stream one by one, each when its last byte has been read. The
invariant is that the first `cur_pos_` bytes of the buffer, followed by what has not been read, are
the encodings of the messages not yet dealt with (`Holds`), and that in the state `kPacket` the
first of these is the one whose length has been read (`AtPacket`). -/

namespace Pink.Pb.Frames

open Pink.Redis.Wire Pink.Lib.Runs Pink.Pb.Conn
open Pink.Server.Threads (ReadStatus)

/-- A frame: the length in network byte order, then the body. -/
def encode (m : Bytes) : Bytes := htonl m.length ++ m

/-- A message that fits in a frame. -/
def Fits (m : Bytes) : Prop :=
  1 ≤ m.length ∧ m.length + COMMAND_HEADER_LENGTH < kProtoMaxMessage

instance (m : Bytes) : Decidable (Fits m) := by unfold Fits; infer_instance

/-- A read hands out bytes, or there are none at the moment. -/
def Recv.Plain : Recv → Prop
  | .data _ | .eagain => True
  | .closed | .failed => False

instance : DecidablePred Recv.Plain := fun r => by cases r <;> unfold Recv.Plain <;> infer_instance

/-- The steps of a connection whose peer goes on, with memory for the buffer and a `DealMessage`
that returns 0. -/
def Op.Plain : Op → Prop
  | .getRequest e => (∀ r ∈ e.recvs, Recv.Plain r) ∧ e.realloc = true ∧ e.deal = 0
  | .tryResizeBuffer _ realloc => realloc = true

instance : DecidablePred Op.Plain := fun op => by cases op <;> unfold Op.Plain <;> infer_instance

theorem length_encode (m : Bytes) : (encode m).length = COMMAND_HEADER_LENGTH + m.length := by
  simp [encode, length_htonl, COMMAND_HEADER_LENGTH]

theorem fits_lt {m : Bytes} (h : Fits m) : m.length + 4 < 2 ^ 29 := by
  have := h.2
  unfold COMMAND_HEADER_LENGTH kProtoMaxMessage at this
  omega

theorem nextRecv_plain {rs : List Recv} (h : ∀ r ∈ rs, Recv.Plain r) :
    Recv.Plain (nextRecv rs) := by
  cases rs with
  | nil => trivial
  | cons r rs => exact h r List.mem_cons_self

theorem tail_plain {rs : List Recv} (h : ∀ r ∈ rs, Recv.Plain r) : ∀ r ∈ rs.tail, Recv.Plain r :=
  fun r hr => h r (List.mem_of_mem_tail hr)

/-! ### The buffer -/

/-- The buffer `b` and what has not been read hold the encodings of `todo`. -/
structure Holds (todo : List Bytes) (c : PbConn) (input b : Bytes) : Prop where
  rbuf : c.rbuf = some b
  curPos : c.curPos ≤ b.length
  bytes : b.take c.curPos ++ input = todo.flatMap encode
  room : PB_IOBUF_LEN ≤ c.rbufLen
  small : c.rbufLen < kProtoMaxMessage
  inside : c.overflow = false

def AtHeader (c : PbConn) : Prop :=
  c.connStatus = .header ∧ c.curPos < COMMAND_HEADER_LENGTH

def AtPacket (todo : List Bytes) (c : PbConn) : Prop :=
  c.connStatus = .packet ∧ ∃ m rest, todo = m :: rest ∧ c.headerLen = m.length ∧
    COMMAND_HEADER_LENGTH ≤ c.curPos ∧ c.curPos < COMMAND_HEADER_LENGTH + m.length ∧
    c.curPos + c.remainPacketLen = COMMAND_HEADER_LENGTH + m.length

def AtComplete (m : Bytes) (c : PbConn) : Prop :=
  c.connStatus = .complete ∧ c.headerLen = m.length ∧
    c.curPos = COMMAND_HEADER_LENGTH + m.length

/-- What a read does not change. -/
structure Same (w w' : World) : Prop where
  calls : w'.calls = w.calls
  headerLen : w'.conn.headerLen = w.conn.headerLen
  curPos : w'.conn.curPos = w.conn.curPos
  remain : w'.conn.remainPacketLen = w.conn.remainPacketLen
  status : w'.conn.connStatus = w.conn.connStatus

/-- **What a read can do**: nothing, or bring the first bytes of the input to the buffer, where they
count as soon as `cur_pos_` is moved behind them. -/
theorem read_cases {todo : List Bytes} {w : World} {n : ℕ} {r : Recv} {b : Bytes}
    (h : Holds todo w.conn w.input b) (hr : Recv.Plain r) (hc : 0 < n)
    (hfit : w.conn.curPos + n ≤ w.conn.rbufLen) :
    ∃ w' b', Same w w' ∧
    ((w.read n r = (w', .eagain) ∧ (r = .eagain ∨ w.input = []) ∧ w'.input = w.input ∧
        Holds todo w'.conn w'.input b') ∨
      ∃ bs, w.read n r = (w', .bytes bs) ∧ 0 < bs.length ∧ bs.length ≤ n ∧
        w'.input.length < w.input.length ∧
        ∀ c, c = { w'.conn with
            curPos := w.conn.curPos + bs.length, headerLen := c.headerLen
            remainPacketLen := c.remainPacketLen, connStatus := c.connStatus } →
          Holds todo c w'.input b') := by
  have h0 : ¬n = 0 := by omega
  by_cases hnone : r = .eagain ∨ w.input = []
  · refine ⟨{ w with conn := { w.conn with
      reads := w.conn.reads ++ [⟨w.conn.curPos, n, w.conn.rbufLen⟩] } }, b,
      ⟨rfl, rfl, rfl, rfl, rfl⟩, .inl ⟨?_, hnone, rfl, ?_⟩⟩
    · cases r with
      | closed => exact hr.elim
      | failed => exact hr.elim
      | eagain => simp [World.read, answer, h0]
      | data k => simp [World.read, answer, h0, hnone.resolve_left (by simp)]
    · exact ⟨h.rbuf, h.curPos, h.bytes, h.room, h.small, h.inside⟩
  · obtain ⟨hne, hin⟩ := not_or.mp hnone
    cases r with
    | closed => exact hr.elim
    | failed => exact hr.elim
    | eagain => exact absurd rfl hne
    | data k =>
      set bs := w.input.take (min (k + 1) n) with hbs
      have hlen : bs.length = min (min (k + 1) n) w.input.length := by
        rw [hbs, List.length_take]
      have hpos : 0 < w.input.length := List.length_pos_iff.mpr hin
      have hsplit : w.input = bs ++ w.input.drop bs.length := by
        rw [hlen, hbs]
        conv_lhs => rw [← List.take_append_drop (min (k + 1) n) w.input]
        rw [List.drop_eq_drop_min]
      refine ⟨{ w with
        conn := { w.conn with
          reads := w.conn.reads ++ [⟨w.conn.curPos, n, w.conn.rbufLen⟩]
          rbuf := some (store b w.conn.curPos bs)
          overflow := w.conn.overflow || decide (w.conn.rbufLen < w.conn.curPos + bs.length) }
        input := w.input.drop bs.length }, store b w.conn.curPos bs, ⟨rfl, rfl, rfl, rfl, rfl⟩,
        .inr ⟨bs, ?_, by omega, by omega, ?_, ?_⟩⟩
      · simp [World.read, answer, h0, hin, h.rbuf, hbs]
      · simp only [List.length_drop]
        omega
      · intro c hc
        rw [hc]
        refine ⟨rfl, le_length_store h.curPos, ?_, h.room, h.small, ?_⟩
        · show (store b w.conn.curPos bs).take (w.conn.curPos + bs.length) ++ w.input.drop bs.length
            = todo.flatMap encode
          rw [take_store h.curPos, List.append_assoc, ← hsplit, h.bytes]
        · show (w.conn.overflow || decide (w.conn.rbufLen < w.conn.curPos + bs.length)) = false
          rw [h.inside, Bool.false_or, decide_eq_false_iff_not]
          omega

/-- When the first `4 + n` bytes are in the buffer, they are the frame of the first message. -/
theorem Holds.frame {m : Bytes} {rest : List Bytes} {c : PbConn} {input b : Bytes}
    (h : Holds (m :: rest) c input b) (hcur : c.curPos = COMMAND_HEADER_LENGTH + m.length) :
    b.take (COMMAND_HEADER_LENGTH + m.length) = encode m ∧ input = rest.flatMap encode := by
  have hb := h.bytes
  rw [List.flatMap_cons, hcur] at hb
  refine List.append_inj hb ?_
  rw [length_encode, List.length_take]
  have := h.curPos
  omega

/-- When the header is in the buffer, it is that of the first message. -/
theorem Holds.header {todo : List Bytes} {c : PbConn} {input b : Bytes} (h : Holds todo c input b)
    (hcur : c.curPos = COMMAND_HEADER_LENGTH) (hm : ∀ m ∈ todo, Fits m) :
    ∃ m rest, todo = m :: rest ∧ ntohl b = m.length := by
  have hb := h.bytes
  have hl := h.curPos
  rw [hcur] at hb hl
  have h4 : (b.take COMMAND_HEADER_LENGTH).length = 4 := by
    rw [List.length_take]; exact min_eq_left hl
  cases todo with
  | nil =>
    have := congrArg List.length hb
    simp [h4] at this
  | cons m rest =>
    refine ⟨m, rest, rfl, ?_⟩
    rw [List.flatMap_cons, encode, List.append_assoc] at hb
    have hhead := (List.append_inj hb (by rw [h4, length_htonl])).1
    have hlt := fits_lt (hm m List.mem_cons_self)
    rw [← List.take_append_drop COMMAND_HEADER_LENGTH b, hhead, ntohl_htonl (by omega)]

/-! ### The turns of a call -/

theorem turns_of_isSome {e : Env} {fuel : ℕ} {x : Call} (h : x.status.isSome) :
    turns e fuel x = x := by
  cases fuel with
  | zero => rfl
  | succ fuel => rw [turns, if_pos h]

theorem turns_succ {e : Env} {fuel : ℕ} {x : Call} (h : x.status = none) :
    turns e (fuel + 1) x = turns e fuel (turn e x) := by
  rw [turns, if_neg (by simp [h])]

/-- A call leaves `todo` with its first message dealt with, if it is complete. -/
inductive Ends (todo : List Bytes) (x x' : Call) : Prop
  | half (b : Bytes) (hst : x'.status = some .readHalf) (hd : x'.dealt = x.dealt)
      (hb : Holds todo x'.w.conn x'.w.input b) (hat : AtHeader x'.w.conn ∨ AtPacket todo x'.w.conn)
  | all (m : Bytes) (rest : List Bytes) (b : Bytes) (htodo : todo = m :: rest)
      (hst : x'.status = some .readAll) (hd : x'.dealt = x.dealt ++ [(m.length, m)])
      (hb : Holds rest x'.w.conn x'.w.input b) (hat : AtHeader x'.w.conn)

/-- What a call that is resumed with some reads to come does to the input and the record. -/
structure Consumes (x x' : Call) : Prop where
  calls : x'.w.calls = x.w.calls
  le : x'.w.input.length ≤ x.w.input.length
  lt : nextRecv x.recvs ≠ .eagain → x.w.input ≠ [] → x'.w.input.length < x.w.input.length

theorem complete_ends {e : Env} {x : Call} {m : Bytes} {rest : List Bytes} {b : Bytes} (fuel : ℕ)
    (hd : e.deal = 0) (hst : x.status = none) (hb : Holds (m :: rest) x.w.conn x.w.input b)
    (hat : AtComplete m x.w.conn) :
    Ends (m :: rest) x (turns e (fuel + 1) x) ∧ (turns e (fuel + 1) x).w.calls = x.w.calls ∧
      (turns e (fuel + 1) x).w.input = x.w.input := by
  obtain ⟨hstat, hlen, hcur⟩ := hat
  obtain ⟨hframe, hinput⟩ := hb.frame hcur
  have hbody : x.w.conn.body = m := by
    have h4 : (htonl m.length).length = COMMAND_HEADER_LENGTH := rfl
    rw [PbConn.body, hb.rbuf, hlen, Option.getD_some, List.take_drop, hframe, encode, ← h4,
      List.drop_left]
  have hturn : turn e x = { x with
      dealt := x.dealt ++ [(m.length, m)]
      w := { x.w with conn := { x.w.conn with connStatus := .header, curPos := 0 } }
      status := some .readAll } := by
    simp only [turn, hstat, completeTurn, hd, hbody, hlen]
    rfl
  rw [turns_succ hst, hturn, turns_of_isSome rfl]
  refine ⟨.all m rest b rfl rfl rfl ?_ ⟨rfl, Nat.zero_lt_succ _⟩, rfl, rfl⟩
  exact ⟨hb.rbuf, Nat.zero_le _, by simpa using hinput, hb.room, hb.small, hb.inside⟩

/-- Making room keeps what the buffer holds. -/
theorem Holds.grow {todo : List Bytes} {c : PbConn} {input b : Bytes} {m : Bytes}
    (h : Holds todo c input b) (hm : Fits m) (hlen : c.headerLen = m.length)
    (hcur : c.curPos ≤ COMMAND_HEADER_LENGTH + m.length) :
    ∃ c' b', grow c true = (c', true) ∧ Holds todo c' input b' ∧
      COMMAND_HEADER_LENGTH + m.length ≤ c'.rbufLen ∧
      c' = { c with rbuf := some b', rbufLen := c'.rbufLen } := by
  have hroom := h.room
  have hsmall := h.small
  have hmax := hm.2
  have hpos := h.curPos
  unfold PB_IOBUF_LEN at hroom
  unfold kProtoMaxMessage at hsmall hmax
  unfold COMMAND_HEADER_LENGTH at hcur hmax ⊢
  have hsub : sub32 c.rbufLen 4 = c.rbufLen - 4 := sub32_of_le (by omega) (by omega)
  by_cases hgrow : c.rbufLen - 4 < m.length
  · have hmod : uint32 (m.length + 4) = m.length + 4 := uint32_of_lt (by omega)
    have hnew : m.length + 4 < kProtoMaxMessage := by unfold kProtoMaxMessage; omega
    refine ⟨{ c with rbuf := some (b.take (m.length + 4)), rbufLen := m.length + 4 },
      b.take (m.length + 4), ?_, ⟨rfl, ?_, ?_, ?_, hnew, h.inside⟩, ?_, rfl⟩
    · simp only [Conn.grow, COMMAND_HEADER_LENGTH, hsub, hlen, hgrow, hmod, hnew, h.rbuf, if_true,
        Option.getD_some]
    · rw [List.length_take]
      exact le_min (by simpa [Nat.add_comm] using hcur) hpos
    · rw [List.take_take, min_eq_left (by simpa [Nat.add_comm] using hcur)]
      exact h.bytes
    · show PB_IOBUF_LEN ≤ m.length + 4
      unfold PB_IOBUF_LEN
      omega
    · show 4 + m.length ≤ m.length + 4
      omega
  · refine ⟨c, b, ?_, h, by omega, by rw [← h.rbuf]⟩
    simp only [Conn.grow, COMMAND_HEADER_LENGTH, hsub, hlen, hgrow, if_false]

/-- A turn that deals no message does not change how the call ends. -/
theorem Ends.of_dealt {todo : List Bytes} {x x₁ x' : Call} (h : Ends todo x₁ x')
    (hdealt : x₁.dealt = x.dealt) : Ends todo x x' := by
  cases h with
  | half b h1 h2 h3 h4 => exact .half b h1 (h2.trans hdealt) h3 h4
  | all m r b h0 h1 h2 h3 h4 => exact .all m r b h0 h1 (by rw [h2, hdealt]) h3 h4

theorem packet_ends {e : Env} {todo : List Bytes} {x : Call} {b : Bytes} (fuel : ℕ)
    (hd : e.deal = 0) (hre : e.realloc = true) (hrs : ∀ r ∈ x.recvs, Recv.Plain r)
    (hst : x.status = none) (hm : ∀ m ∈ todo, Fits m) (hb : Holds todo x.w.conn x.w.input b)
    (hat : AtPacket todo x.w.conn) :
    Ends todo x (turns e (fuel + 2) x) ∧ Consumes x (turns e (fuel + 2) x) := by
  obtain ⟨hstat, m, rest, rfl, hlen, h4, hlt, hrem⟩ := hat
  have hfit := hm m List.mem_cons_self
  have hmax := fits_lt hfit
  obtain ⟨c, b', hgrow, hb', hroom, hc⟩ := hb.grow hfit hlen hlt.le
  obtain ⟨hcur, hrem', hstat', hlen'⟩ : c.curPos = x.w.conn.curPos ∧
      c.remainPacketLen = x.w.conn.remainPacketLen ∧ c.connStatus = .packet ∧
      c.headerLen = m.length := by
    rw [hc]
    exact ⟨rfl, rfl, hstat, hlen⟩
  unfold COMMAND_HEADER_LENGTH at hrem hlt h4 hroom
  have hcount : sizeT c.remainPacketLen = 4 + m.length - c.curPos := by
    rw [sizeT_of_nonneg (by omega) (by omega)]
    omega
  obtain ⟨w', b'', hsame, ⟨hread, hnone, hin, hb''⟩ | ⟨bs, hread, hpos, hle, hless, hb''⟩⟩ :=
    read_cases (w := ⟨c, x.w.input, x.w.calls⟩) (n := sizeT c.remainPacketLen) hb'
      (nextRecv_plain hrs) (by omega) (by show c.curPos + _ ≤ c.rbufLen; omega)
  · have hturn : turn e x = { x with
        w := w', recvs := x.recvs.tail, status := some .readHalf } := by
      simp only [turn, hstat, packetTurn, hre, hgrow, hread]
    rw [turns_succ hst, hturn, turns_of_isSome rfl]
    refine ⟨.half b'' rfl rfl hb'' (.inr ⟨hsame.status.trans hstat', m, rest, rfl,
      hsame.headerLen.trans hlen', ?_⟩), hsame.calls, (congrArg List.length hin).le, ?_⟩
    · have h1 : w'.conn.curPos = c.curPos := hsame.curPos
      have h2 : w'.conn.remainPacketLen = c.remainPacketLen := hsame.remain
      show 4 ≤ w'.conn.curPos ∧ w'.conn.curPos < 4 + m.length ∧
        (w'.conn.curPos : ℤ) + w'.conn.remainPacketLen = 4 + m.length
      omega
    · rintro hr hne
      exact absurd hnone (not_or.mpr ⟨hr, hne⟩)
  · have h1 : w'.conn.curPos = c.curPos := hsame.curPos
    have h2 : w'.conn.remainPacketLen = c.remainPacketLen := hsame.remain
    have hmod : uint32 (w'.conn.curPos + bs.length) = c.curPos + bs.length := by
      rw [h1, uint32_of_lt (by omega)]
    have hint : int32 (w'.conn.remainPacketLen - bs.length) = c.remainPacketLen - bs.length := by
      rw [h2, int32_of_lt (by omega) (by omega)]
    by_cases hz : c.remainPacketLen - bs.length = 0
    · have hturn : turn e x = { x with
          w := { w' with conn := { w'.conn with
            curPos := c.curPos + bs.length, remainPacketLen := c.remainPacketLen - bs.length
            connStatus := .complete } }
          recvs := x.recvs.tail } := by
        simp only [turn, hstat, packetTurn, hre, hgrow, hread, hmod, hint, hz, if_true]
      rw [turns_succ hst]
      have hnext : Holds (m :: rest) (turn e x).w.conn (turn e x).w.input b'' := by
        rw [hturn]
        exact hb'' _ rfl
      obtain ⟨hends, hcalls, hinput⟩ := complete_ends fuel hd (by rw [hturn]; exact hst) hnext
        (by rw [hturn]
            exact ⟨rfl, hsame.headerLen.trans hlen', by
              show c.curPos + bs.length = 4 + m.length; omega⟩)
      have hless' : (turns e (fuel + 1) (turn e x)).w.input.length < x.w.input.length := by
        rw [hinput, hturn]; exact hless
      refine ⟨?_, ?_, hless'.le, fun _ _ => hless'⟩
      · exact hends.of_dealt (by rw [hturn])
      · rw [hcalls, hturn]; exact hsame.calls
    · have hturn : turn e x = { x with
          w := { w' with conn := { w'.conn with
            curPos := c.curPos + bs.length, remainPacketLen := c.remainPacketLen - bs.length } }
          recvs := x.recvs.tail, status := some .readHalf } := by
        simp only [turn, hstat, packetTurn, hre, hgrow, hread, hmod, hint, hz, if_false]
      rw [turns_succ hst, hturn, turns_of_isSome rfl]
      refine ⟨.half _ rfl rfl (hb'' _ rfl) (.inr ⟨hsame.status.trans hstat', m, rest, rfl,
        hsame.headerLen.trans hlen', ?_⟩), hsame.calls, hless.le, fun _ _ => hless⟩
      show 4 ≤ c.curPos + bs.length ∧ c.curPos + bs.length < 4 + m.length ∧
        ((c.curPos + bs.length : ℕ) : ℤ) + (c.remainPacketLen - bs.length) = 4 + m.length
      omega

theorem header_ends {e : Env} {todo : List Bytes} {x : Call} {b : Bytes} (fuel : ℕ)
    (hd : e.deal = 0) (hre : e.realloc = true) (hrs : ∀ r ∈ x.recvs, Recv.Plain r)
    (hst : x.status = none) (hm : ∀ m ∈ todo, Fits m) (hb : Holds todo x.w.conn x.w.input b)
    (hat : AtHeader x.w.conn) :
    Ends todo x (turns e (fuel + 3) x) ∧ Consumes x (turns e (fuel + 3) x) := by
  obtain ⟨hstat, hlt⟩ := hat
  have hroom := hb.room
  unfold PB_IOBUF_LEN at hroom
  have hsub : sub32 COMMAND_HEADER_LENGTH x.w.conn.curPos =
      COMMAND_HEADER_LENGTH - x.w.conn.curPos := sub32_of_le hlt.le (by decide)
  unfold COMMAND_HEADER_LENGTH at hlt hsub
  obtain ⟨w', b', hsame, ⟨hread, hnone, hin, hb'⟩ | ⟨bs, hread, hpos, hle, hless, hb'⟩⟩ :=
    read_cases (n := sub32 4 x.w.conn.curPos) hb (nextRecv_plain hrs) (by omega) (by omega)
  · have hturn : turn e x = { x with
        w := w', recvs := x.recvs.tail, status := some .readHalf } := by
      simp only [turn, hstat, headerTurn, COMMAND_HEADER_LENGTH, hread]
    rw [turns_succ hst, hturn, turns_of_isSome rfl]
    refine ⟨.half b' rfl rfl hb' (.inl ⟨hsame.status.trans hstat, ?_⟩), hsame.calls,
      (congrArg List.length hin).le, ?_⟩
    · show w'.conn.curPos < 4
      rw [hsame.curPos]
      exact hlt
    · rintro hr hne
      exact absurd hnone (not_or.mpr ⟨hr, hne⟩)
  · have hcur := hsame.curPos
    have hmod : uint32 (w'.conn.curPos + bs.length) = x.w.conn.curPos + bs.length := by
      rw [hcur, uint32_of_lt (by omega)]
    by_cases h4 : x.w.conn.curPos + bs.length = 4
    · -- the header is complete, and the call goes on with the body
      obtain ⟨m, rest, rfl, hn⟩ :=
        (hb' { w'.conn with curPos := x.w.conn.curPos + bs.length } rfl).header h4 hm
      have hmax := fits_lt (hm m List.mem_cons_self)
      have hone := (hm m List.mem_cons_self).1
      have hint : int32 (m.length : ℤ) = m.length := int32_of_lt (by omega) (by omega)
      have hn' : ntohl (w'.conn.rbuf.getD []) = m.length := by
        have : w'.conn.rbuf = some b' :=
          (hb' { w'.conn with curPos := x.w.conn.curPos + bs.length } rfl).rbuf
        rw [this]
        exact hn
      have hturn : turn e x = { x with
          w := { w' with conn := { w'.conn with
            curPos := x.w.conn.curPos + bs.length, headerLen := m.length
            remainPacketLen := m.length, connStatus := .packet } }
          recvs := x.recvs.tail } := by
        simp only [turn, hstat, headerTurn, COMMAND_HEADER_LENGTH, hread]
        rw [hmod, hn', hint]
        exact if_pos h4
      rw [turns_succ hst]
      obtain ⟨hends, hcons⟩ := packet_ends fuel hd hre (x := turn e x) (b := b')
        (by rw [hturn]; exact tail_plain hrs) (by rw [hturn]; exact hst) hm
        (by rw [hturn]; exact hb' _ rfl)
        (by rw [hturn]
            refine ⟨rfl, m, rest, rfl, rfl, h4.ge, ?_, ?_⟩
            · show x.w.conn.curPos + bs.length < 4 + m.length
              rw [h4]
              exact Nat.lt_add_of_pos_right hone
            · show ((x.w.conn.curPos + bs.length : ℕ) : ℤ) + m.length = (4 : ℕ) + m.length
              rw [h4])
      have hless' : (turns e (fuel + 2) (turn e x)).w.input.length < x.w.input.length :=
        lt_of_le_of_lt hcons.le (by rw [hturn]; exact hless)
      refine ⟨?_, ?_, hless'.le, fun _ _ => hless'⟩
      · exact hends.of_dealt (by rw [hturn])
      · rw [hcons.calls, hturn]
        exact hsame.calls
    · have hturn : turn e x = { x with
          w := { w' with conn := { w'.conn with curPos := x.w.conn.curPos + bs.length } }
          recvs := x.recvs.tail, status := some .readHalf } := by
        simp only [turn, hstat, headerTurn, COMMAND_HEADER_LENGTH, hread, hmod, h4, if_false]
      rw [turns_succ hst, hturn, turns_of_isSome rfl]
      refine ⟨.half _ rfl rfl (hb' _ rfl) (.inl ⟨hsame.status.trans hstat, ?_⟩), hsame.calls,
        hless.le, fun _ _ => hless⟩
      show x.w.conn.curPos + bs.length < 4
      omega

/-! ### The steps -/

/-- A shrunk buffer still has all the bytes received, and room for a header. -/
theorem Holds.tryResizeBuffer {todo : List Bytes} {c : PbConn} {input b : Bytes}
    (h : Holds todo c input b) (hcur : c.curPos < 2 ^ 29) (idletime : ℤ) :
    ∃ b', Holds todo (tryResizeBuffer c idletime true) input b' := by
  unfold Conn.tryResizeBuffer
  by_cases hlarge : PB_IOBUF_LEN < c.rbufLen ∧
      (2 < c.rbufLen / uint32 (c.curPos + 1) ∨ 2 < idletime)
  swap
  · rw [if_neg hlarge]
    exact ⟨b, h⟩
  rw [if_pos hlarge]
  by_cases hless : shrinkSize c.curPos < c.rbufLen
  · simp only [hless, if_true, h.rbuf, Option.getD_some]
    have hsize := le_shrinkSize hcur
    refine ⟨b.take (shrinkSize c.curPos), rfl, ?_, ?_, hsize.1, ?_, h.inside⟩
    · rw [List.length_take]
      exact le_min hsize.2 h.curPos
    · rw [List.take_take, min_eq_left hsize.2]
      exact h.bytes
    · exact hless.trans h.small
  · simp only [hless, if_false]
    exact ⟨b, h⟩

/-- What `DealMessage` finds of a message. -/
def found (m : Bytes) : ℕ × Bytes := (m.length, m)

/-- A call returns `kReadAll` if it deals with a message, and `kReadHalf` else. -/
def Reports (c : Option ReadStatus × List (ℕ × Bytes)) : Prop :=
  (c.1 = some .readAll ∧ ∃ m, c.2 = [found m]) ∨ (c.1 = some .readHalf ∧ c.2 = [])

/-- The messages of `done` have been dealt with, those of `todo` have not. -/
structure Inv (msgs : List Bytes) (w : World) (done todo : List Bytes) (b : Bytes) : Prop where
  msgs : msgs = done ++ todo
  dealt : w.dealt = done.map found
  holds : Holds todo w.conn w.input b
  at_ : AtHeader w.conn ∨ AtPacket todo w.conn
  calls : ∀ c ∈ w.calls, Reports c

theorem dealt_append (w : World) (st : Option ReadStatus) (ds : List (ℕ × Bytes)) :
    { w with calls := w.calls ++ [(st, ds)] }.dealt = w.dealt ++ ds := by
  simp [World.dealt]

/-- **One call of `GetRequest`.** -/
theorem getRequest_inv {msgs done todo : List Bytes} {w : World} {b : Bytes} {e : Env}
    (hm : ∀ m ∈ msgs, Fits m) (he : Op.Plain (.getRequest e)) (h : Inv msgs w done todo b) :
    (∃ done todo b, Inv msgs (getRequest w e) done todo b) ∧
      (getRequest w e).input.length ≤ w.input.length ∧
      (nextRecv e.recvs ≠ .eagain → w.input ≠ [] →
        (getRequest w e).input.length < w.input.length) := by
  obtain ⟨hrs, hre, hd⟩ := he
  have hmt : ∀ m ∈ todo, Fits m := fun m hmem => hm m (by rw [h.msgs]; simp [hmem])
  obtain ⟨hends, hcons⟩ : Ends todo ⟨w, e.recvs, [], none⟩ (turns e 3 ⟨w, e.recvs, [], none⟩) ∧
      Consumes ⟨w, e.recvs, [], none⟩ (turns e 3 ⟨w, e.recvs, [], none⟩) := by
    rcases h.at_ with hat | hat
    · exact header_ends 0 hd hre hrs rfl hmt h.holds hat
    · exact packet_ends 1 hd hre hrs rfl hmt h.holds hat
  refine ⟨?_, hcons.le, hcons.lt⟩
  unfold getRequest
  generalize turns e 3 ⟨w, e.recvs, [], none⟩ = x at hends hcons
  have hcalls : x.w.calls = w.calls := hcons.calls
  have hdealt : x.w.dealt = done.map found := by rw [World.dealt, hcalls]; exact h.dealt
  cases hends with
  | half b' hst hds hb hat =>
    refine ⟨done, todo, b', h.msgs, ?_, hb, hat, ?_⟩
    · rw [dealt_append, hdealt, hds, List.append_nil]
    · intro c hc
      rcases List.mem_append.mp hc with hc | hc
      · exact h.calls c (hcalls ▸ hc)
      · rw [List.mem_singleton.mp hc]
        exact .inr ⟨hst, hds⟩
  | all m rest b' htodo hst hds hb hat =>
    refine ⟨done ++ [m], rest, b', ?_, ?_, hb, .inl hat, ?_⟩
    · rw [h.msgs, htodo, List.append_assoc, List.singleton_append]
    · rw [dealt_append, hdealt, hds, List.map_append]
      rfl
    · intro c hc
      rcases List.mem_append.mp hc with hc | hc
      · exact h.calls c (hcalls ▸ hc)
      · rw [List.mem_singleton.mp hc]
        exact .inl ⟨hst, m, hds⟩

theorem tryResizeBuffer_inv {msgs done todo : List Bytes} {w : World} {b : Bytes}
    (hm : ∀ m ∈ msgs, Fits m) (idletime : ℤ) (h : Inv msgs w done todo b) :
    ∃ b, Inv msgs { w with conn := tryResizeBuffer w.conn idletime true } done todo b := by
  have hfields : ∀ c : PbConn, (tryResizeBuffer c idletime true).connStatus = c.connStatus ∧
      (tryResizeBuffer c idletime true).curPos = c.curPos ∧
      (tryResizeBuffer c idletime true).headerLen = c.headerLen ∧
      (tryResizeBuffer c idletime true).remainPacketLen = c.remainPacketLen := by
    intro c
    unfold tryResizeBuffer
    dsimp only
    split_ifs <;> exact ⟨rfl, rfl, rfl, rfl⟩
  obtain ⟨h1, h2, h3, h4⟩ := hfields w.conn
  have hcur : w.conn.curPos < 2 ^ 29 := by
    rcases h.at_ with hat | ⟨-, m, rest, htodo, -, -, hlt, -⟩
    · exact hat.2.trans (by decide)
    · have := fits_lt (hm m (by rw [h.msgs, htodo]; simp))
      unfold COMMAND_HEADER_LENGTH at hlt
      omega
  obtain ⟨b', hb'⟩ := h.holds.tryResizeBuffer hcur idletime
  refine ⟨b', h.msgs, h.dealt, hb', ?_, h.calls⟩
  simpa only [AtHeader, AtPacket, h1, h2, h3, h4] using h.at_

/-- A fresh connection to a peer that sends `input`. -/
def start (input : Bytes) : World := { input := input }

theorem run_frames {msgs : List Bytes} (hm : ∀ m ∈ msgs, Fits m) {ops : List Op}
    (hops : ∀ op ∈ ops, Op.Plain op) :
    ∃ done todo b, Inv msgs (run step (start (msgs.flatMap encode)) ops) done todo b := by
  refine run_inv_of_forall (fun w => ∃ done todo b, Inv msgs w done todo b) ?_ ?_ hops
  · rintro w (e | ⟨idletime, realloc⟩) ⟨done, todo, b, h⟩ hop
    · exact (getRequest_inv hm hop h).1
    · obtain rfl : realloc = true := hop
      exact ⟨done, todo, tryResizeBuffer_inv hm idletime h⟩
  · exact ⟨[], msgs, [], rfl, rfl,
      ⟨rfl, le_rfl, by simp [start], le_rfl, by show PB_IOBUF_LEN < kProtoMaxMessage; decide, rfl⟩,
      .inl ⟨rfl, Nat.zero_lt_succ _⟩, by simp [start]⟩

/-- What is in the buffer is less than the frame of the next message. -/
theorem Inv.curPos_lt {msgs done todo : List Bytes} {w : World} {b : Bytes}
    (h : Inv msgs w done todo b) : ∀ m ∈ todo.head?, w.conn.curPos < (encode m).length := by
  intro m hm
  rw [length_encode]
  rcases h.at_ with hat | ⟨-, m', rest, rfl, -, -, hlt, -⟩
  · exact hat.2.trans_le (Nat.le_add_right _ _)
  · obtain rfl : m' = m := by simpa using hm
    exact hlt

/-- **Frames are put together exactly.** After any calls of `GetRequest` and `TryResizeBuffer`, the
messages dealt with are those whose last byte has been read, each with its length and its body, and
a call returns `kReadAll` if it deals with a message, and `kReadHalf` else. A call that finds bytes
reads some of them, so the whole stream is read and every message is dealt with. -/
theorem frames_exact (msgs : List Bytes) (hm : ∀ m ∈ msgs, Fits m) (ops : List Op)
    (hops : ∀ op ∈ ops, Op.Plain op) :
    let w := run step (start (msgs.flatMap encode)) ops
    (∃ done todo part, msgs = done ++ todo ∧ w.dealt = done.map found ∧
      msgs.flatMap encode = done.flatMap encode ++ part ++ w.input ∧
      ∀ m ∈ todo.head?, part.length < (encode m).length) ∧
    (w.input = [] → w.dealt = msgs.map found) ∧
    (∀ c ∈ w.calls, Reports c) ∧
    w.conn.overflow = false ∧
    ∀ e, Op.Plain (.getRequest e) → nextRecv e.recvs ≠ .eagain → w.input ≠ [] →
      (getRequest w e).input.length < w.input.length := by
  intro w
  obtain ⟨done, todo, b, h⟩ : ∃ done todo b, Inv msgs w done todo b := run_frames hm hops
  have hlen : (b.take w.conn.curPos).length = w.conn.curPos := by
    rw [List.length_take]
    exact min_eq_left h.holds.curPos
  refine ⟨⟨done, todo, b.take w.conn.curPos, h.msgs, h.dealt, ?_, ?_⟩, ?_, h.calls, h.holds.inside,
    fun e he => (getRequest_inv hm he h).2.2⟩
  · rw [List.append_assoc, h.holds.bytes, h.msgs, List.flatMap_append]
  · rw [hlen]
    exact h.curPos_lt
  · -- with nothing left to read, the next message would be in the buffer as a whole
    intro hin
    have hbytes := congrArg List.length h.holds.bytes
    have hlt := h.curPos_lt
    cases todo with
    | nil => rw [h.dealt, h.msgs, List.append_nil]
    | cons m rest =>
      have hm' := hlt m rfl
      rw [hin, List.append_nil, hlen, List.flatMap_cons, List.length_append] at hbytes
      omega

theorem frames_exact_resumed :
    (run step (start ([[7, 8], [9]].flatMap encode))
      [.getRequest ⟨[.data 2], true, 0⟩, .tryResizeBuffer 3 true, .getRequest ⟨[.data 9], true, 0⟩,
        .getRequest ⟨[.eagain], true, 0⟩, .getRequest ⟨[.data 0], true, 0⟩,
        .getRequest ⟨[.data 0], true, 0⟩, .getRequest ⟨[.data 7, .data 7], true, 0⟩]).dealt =
      [[7, 8], [9]].map found :=
  (frames_exact [[7, 8], [9]] (by decide) _ (by decide)).2.1 (by decide +kernel)

end Pink.Pb.Frames
