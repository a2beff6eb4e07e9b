import Pink.Pb.Client
import Pink.Pb.Frames

/-! # Body reads and the buffer

A body read asks for what the frame still lacks, an `int32_t`, and writes behind what has been
received. It stays inside the buffer as long as `header_len_ + 4` does not wrap around: a header of
`2^32 - 4` or more is taken for a frame of at most 3 bytes, the buffer is shrunk to that, and the
count is negative. `bounds_iff` says that this is the only way out of the buffer, and that every
other header that does not fit is answered with `kFullError`. -/

namespace Pink.Pb.Bounds

open Pink.Redis.Wire Pink.Lib.Runs Pink.Pb.Conn Pink.Pb.Client
open Pink.Pb.Frames (start turns_of_isSome turns_succ)
open Pink.Server.Threads (ReadStatus)

/-- A read has a count that is not negative, as a `size_t` that is not too large for an `int`, and
writes inside the buffer. -/
def Inside (r : Read) : Prop := r.count < 2 ^ 31 ∧ r.pos + r.count ≤ r.rbufLen

instance (r : Read) : Decidable (Inside r) := inferInstanceAs (Decidable (_ ∧ _))

/-- The header of the frame that a call works on when it comes to the body: the one it has, or the
one that its first read completes. -/
def header (w : World) (e : Env) : Option ℕ :=
  match w.conn.connStatus with
  | .packet => some w.conn.headerLen
  | .header =>
    match w.read (sub32 COMMAND_HEADER_LENGTH w.conn.curPos) (nextRecv e.recvs) with
    | (w, .bytes bs) =>
      if uint32 (w.conn.curPos + bs.length) = COMMAND_HEADER_LENGTH then
        some (ntohl (w.conn.rbuf.getD []))
      else none
    | _ => none
  | _ => none

/-- The reads that a step adds. -/
def newReads (w w' : World) : List Read := w'.conn.reads.drop w.conn.reads.length

/-- **A step reads inside the buffer**, and answers a header that does not fit with `kFullError`. -/
def Safe (w : World) : Op → Prop
  | .getRequest e => (∀ r ∈ newReads w (getRequest w e), Inside r) ∧
    ∀ h ∈ header w e, kProtoMaxMessage ≤ h + COMMAND_HEADER_LENGTH →
      (getRequest w e).calls.getLast? = some (some .fullError, [])
  | .tryResizeBuffer _ _ => True

/-- The size of the frame does not wrap around, or there is no memory. -/
def Handled (w : World) : Op → Prop
  | .getRequest e => ∀ h ∈ header w e, h + COMMAND_HEADER_LENGTH < 2 ^ 32 ∨ e.realloc = false
  | .tryResizeBuffer _ _ => True

/-! ### The invariant -/

/-- Where a connection stands. A frame that does not fit is never begun. -/
def At (c : PbConn) : Prop :=
  match c.connStatus with
  | .header => c.curPos < COMMAND_HEADER_LENGTH
  | .packet => c.headerLen < 2 ^ 32 ∧
    (kProtoMaxMessage ≤ c.headerLen + COMMAND_HEADER_LENGTH ∧ c.curPos = COMMAND_HEADER_LENGTH ∧
        c.remainPacketLen = int32 c.headerLen ∨
      c.headerLen + COMMAND_HEADER_LENGTH < kProtoMaxMessage ∧ COMMAND_HEADER_LENGTH ≤ c.curPos ∧
        0 ≤ c.remainPacketLen ∧
        c.curPos + c.remainPacketLen = COMMAND_HEADER_LENGTH + c.headerLen)
  | .complete => c.curPos < kProtoMaxMessage
  | .buildObuf | .writeObuf => False

structure Inv (c : PbConn) : Prop where
  room : PB_IOBUF_LEN ≤ c.rbufLen
  small : c.rbufLen < kProtoMaxMessage
  at_ : At c

theorem ntohl_lt (b : Bytes) : ntohl b < 2 ^ 32 := by
  unfold ntohl
  split
  · next a b c d _ =>
    have := a.toNat_lt
    have := b.toNat_lt
    have := c.toNat_lt
    have := d.toNat_lt
    omega
  · omega

/-- What a read does to the connection: the buffer may change, and the call is recorded. -/
theorem read_conn (w : World) (n : ℕ) (r : Recv) : ∃ rbuf overflow, (w.read n r).1.conn =
    { w.conn with
      rbuf := rbuf, overflow := overflow
      reads := w.conn.reads ++ [⟨w.conn.curPos, n, w.conn.rbufLen⟩] } := by
  unfold World.read
  dsimp only
  split
  · split
    · exact ⟨_, _, rfl⟩
    · exact ⟨_, _, rfl⟩
  · exact ⟨_, _, rfl⟩

theorem read_bytes {w : World} {n : ℕ} {r : Recv} {bs : Bytes} (h : (w.read n r).2 = .bytes bs) :
    0 < bs.length ∧ bs.length ≤ n := by
  have hans : answer w.input n r = .bytes bs := by
    unfold World.read at h
    dsimp only at h
    split at h
    · next bs' heq =>
      split at h
      · cases h
      · rw [heq]; exact h
    · exact h
  cases r with
  | data k =>
    simp only [answer] at hans
    split_ifs at hans with hn hin
    have hlen := List.length_pos_iff.mpr hin
    obtain rfl : w.input.take (min (k + 1) n) = bs := by simpa using hans
    rw [List.length_take]
    omega
  | eagain => simp only [answer] at hans; split_ifs at hans
  | closed => simp only [answer] at hans; split_ifs at hans
  | failed => simp only [answer] at hans; split_ifs at hans

/-! ### The turns of a call -/

/-- The reads made so far are all inside. -/
def Grew (base : List Read) (x : Call) : Prop :=
  ∃ rs, x.w.conn.reads = base ++ rs ∧ ∀ r ∈ rs, Inside r

theorem Grew.snoc {base : List Read} {x x' : Call} {r : Read} (h : Grew base x) (hr : Inside r)
    (hx : x'.w.conn.reads = x.w.conn.reads ++ [r]) : Grew base x' := by
  obtain ⟨rs, hrs, hin⟩ := h
  refine ⟨rs ++ [r], by rw [hx, hrs, List.append_assoc], ?_⟩
  intro r' hr'
  rcases List.mem_append.mp hr' with hr' | hr'
  · exact hin r' hr'
  · rw [List.mem_singleton.mp hr']
    exact hr

/-- **The header**: a read of at most four bytes, after which the call returns or goes on with the
body. -/
theorem headerTurn_spec {base : List Read} {e : Env} {x : Call} (hrecvs : x.recvs = e.recvs)
    (hst : x.status = none) (hinv : Inv x.w.conn) (hh : x.w.conn.connStatus = .header)
    (hgrew : Grew base x) :
    Inv (headerTurn x).w.conn ∧ Grew base (headerTurn x) ∧
      (headerTurn x).w.calls = x.w.calls ∧ (headerTurn x).dealt = x.dealt ∧
      ((headerTurn x).status = none ∧ (headerTurn x).w.conn.connStatus = .packet ∧
          header x.w e = some (headerTurn x).w.conn.headerLen ∨
        (∃ st, (headerTurn x).status = some st) ∧ header x.w e = none) := by
  have hlt : x.w.conn.curPos < COMMAND_HEADER_LENGTH := by
    have := hinv.at_
    rwa [At, hh] at this
  have hsub : sub32 COMMAND_HEADER_LENGTH x.w.conn.curPos =
      COMMAND_HEADER_LENGTH - x.w.conn.curPos := sub32_of_le hlt.le (by decide)
  have hroom := hinv.room
  unfold PB_IOBUF_LEN at hroom
  have hin : Inside ⟨x.w.conn.curPos, sub32 COMMAND_HEADER_LENGTH x.w.conn.curPos,
      x.w.conn.rbufLen⟩ := by
    unfold COMMAND_HEADER_LENGTH at hsub hlt
    constructor
    · show sub32 4 _ < _
      omega
    · show x.w.conn.curPos + sub32 4 x.w.conn.curPos ≤ x.w.conn.rbufLen
      omega
  obtain ⟨rbuf, overflow, hconn⟩ := read_conn x.w
    (sub32 COMMAND_HEADER_LENGTH x.w.conn.curPos) (nextRecv x.recvs)
  have hcalls := read_calls x.w (sub32 COMMAND_HEADER_LENGTH x.w.conn.curPos) (nextRecv x.recvs)
  have hbytes := @read_bytes x.w (sub32 COMMAND_HEADER_LENGTH x.w.conn.curPos) (nextRecv x.recvs)
  simp only [headerTurn, header, hh, ← hrecvs]
  generalize x.w.read (sub32 COMMAND_HEADER_LENGTH x.w.conn.curPos) (nextRecv x.recvs) = r at *
  obtain ⟨w', g⟩ := r
  dsimp only at hconn hcalls hbytes
  have hinv' : Inv w'.conn := by
    rw [hconn]
    exact ⟨hinv.room, hinv.small, by simpa only [At, hh] using hlt⟩
  have hgrew' : ∀ x' : Call, x'.w.conn.reads = w'.conn.reads → Grew base x' :=
    fun x' hx' => hgrew.snoc hin (by rw [hx', hconn])
  cases g with
  | eagain => exact ⟨hinv', hgrew' _ rfl, hcalls, rfl, .inr ⟨⟨_, rfl⟩, rfl⟩⟩
  | error => exact ⟨hinv', hgrew' _ rfl, hcalls, rfl, .inr ⟨⟨_, rfl⟩, rfl⟩⟩
  | eof => exact ⟨hinv', hgrew' _ rfl, hcalls, rfl, .inr ⟨⟨_, rfl⟩, rfl⟩⟩
  | bytes bs =>
    obtain ⟨hpos, hle⟩ := hbytes rfl
    have hcur : w'.conn.curPos = x.w.conn.curPos := by rw [hconn]
    have hmod : uint32 (w'.conn.curPos + bs.length) = x.w.conn.curPos + bs.length := by
      unfold COMMAND_HEADER_LENGTH at hlt hsub hle
      rw [hcur, uint32_of_lt (by omega)]
    dsimp only
    rw [hmod]
    by_cases h4 : x.w.conn.curPos + bs.length = COMMAND_HEADER_LENGTH
    · rw [if_pos h4, if_pos h4]
      have hn := ntohl_lt (w'.conn.rbuf.getD [])
      generalize ntohl (w'.conn.rbuf.getD []) = n at hn
      refine ⟨⟨hinv'.room, hinv'.small, ?_⟩, hgrew' _ rfl, hcalls, rfl, .inl ⟨hst, rfl, rfl⟩⟩
      refine ⟨hn, ?_⟩
      by_cases hfit : n + COMMAND_HEADER_LENGTH < kProtoMaxMessage
      · right
        have hint : int32 (n : ℤ) = n := by
          unfold kProtoMaxMessage at hfit
          exact int32_of_lt (by omega) (by omega)
        refine ⟨hfit, h4.ge, ?_, ?_⟩
        · show 0 ≤ int32 (n : ℤ)
          rw [hint]
          exact Int.natCast_nonneg n
        · show ((x.w.conn.curPos + bs.length : ℕ) : ℤ) + int32 (n : ℤ) = _
          rw [hint, h4]
      · exact .inl ⟨not_lt.mp hfit, h4, rfl⟩
    · rw [if_neg h4, if_neg h4]
      refine ⟨⟨hinv'.room, hinv'.small, ?_⟩, hgrew' _ rfl, hcalls, rfl, .inr ⟨⟨_, rfl⟩, rfl⟩⟩
      have hstat : w'.conn.connStatus = .header := by rw [hconn]; exact hh
      simp only [At, hstat]
      omega

/-- Making room: `kFullError` for a frame that does not fit, and else a buffer with room for it. -/
theorem grow_spec {c : PbConn} {realloc : Bool} (hinv : Inv c) (hp : c.connStatus = .packet)
    (hok : c.headerLen + COMMAND_HEADER_LENGTH < 2 ^ 32 ∨ realloc = false) :
    (∃ rbuf, grow c realloc = ({ c with rbuf := rbuf }, false)) ∨
      c.headerLen + COMMAND_HEADER_LENGTH < kProtoMaxMessage ∧
        ∃ rbuf n, grow c realloc = ({ c with rbuf := rbuf, rbufLen := n }, true) ∧
          PB_IOBUF_LEN ≤ n ∧ n < kProtoMaxMessage ∧ COMMAND_HEADER_LENGTH + c.headerLen ≤ n := by
  have hroom := hinv.room
  have hsmall := hinv.small
  have hat := hinv.at_
  rw [At, hp] at hat
  obtain ⟨hlen, -⟩ := hat
  have hsub : sub32 c.rbufLen COMMAND_HEADER_LENGTH = c.rbufLen - COMMAND_HEADER_LENGTH := by
    refine sub32_of_le ?_ ?_
    · unfold PB_IOBUF_LEN at hroom
      unfold COMMAND_HEADER_LENGTH
      omega
    · unfold kProtoMaxMessage at hsmall
      omega
  unfold grow
  rw [hsub]
  by_cases hgrow : c.rbufLen - COMMAND_HEADER_LENGTH < c.headerLen
  · rw [if_pos hgrow]
    dsimp only
    by_cases hnew : uint32 (c.headerLen + COMMAND_HEADER_LENGTH) < kProtoMaxMessage
    · rw [if_pos hnew]
      cases realloc with
      | false => exact .inl ⟨_, rfl⟩
      | true =>
        have hmod := uint32_of_lt (hok.resolve_right (by simp))
        rw [hmod] at hnew ⊢
        refine .inr ⟨hnew, _, _, rfl, ?_, hnew, by omega⟩
        unfold COMMAND_HEADER_LENGTH at hgrow ⊢
        omega
    · rw [if_neg hnew]
      exact .inl ⟨c.rbuf, rfl⟩
  · rw [if_neg hgrow]
    unfold PB_IOBUF_LEN at hroom
    unfold COMMAND_HEADER_LENGTH at hgrow ⊢
    exact .inr ⟨by omega, c.rbuf, c.rbufLen, rfl, hinv.room, hsmall, by omega⟩

/-- **The body.** -/
theorem packetTurn_spec {base : List Read} {x : Call} {realloc : Bool} (hinv : Inv x.w.conn)
    (hp : x.w.conn.connStatus = .packet) (hgrew : Grew base x)
    (hok : x.w.conn.headerLen + COMMAND_HEADER_LENGTH < 2 ^ 32 ∨ realloc = false) :
    Inv (packetTurn x realloc).w.conn ∧ Grew base (packetTurn x realloc) ∧
      (packetTurn x realloc).w.calls = x.w.calls ∧ (packetTurn x realloc).dealt = x.dealt ∧
      ((packetTurn x realloc).status = none → (packetTurn x realloc).w.conn.connStatus = .complete) ∧
      (kProtoMaxMessage ≤ x.w.conn.headerLen + COMMAND_HEADER_LENGTH →
        (packetTurn x realloc).status = some .fullError) := by
  have hat := hinv.at_
  rw [At, hp] at hat
  obtain ⟨rbuf, hgrow⟩ | ⟨hfit, rbuf, n, hgrow, hroom, hsmall, hn⟩ := grow_spec hinv hp hok
  · have heq : packetTurn x realloc = { x with
        w := { x.w with conn := { x.w.conn with rbuf := rbuf } }, status := some .fullError } := by
      rw [packetTurn, hgrow]
    rw [heq]
    refine ⟨⟨hinv.room, hinv.small, ?_⟩, hgrew, rfl, rfl, by simp, fun _ => rfl⟩
    simpa only [At, hp] using hat
  obtain ⟨hlen, ⟨hbig, -⟩ | ⟨-, h4, h0, hsum⟩⟩ := hat
  · omega
  have hcount : sizeT x.w.conn.remainPacketLen = x.w.conn.remainPacketLen.toNat := by
    refine sizeT_of_nonneg h0 ?_
    unfold COMMAND_HEADER_LENGTH at hsum
    omega
  have hfit' := hfit
  unfold COMMAND_HEADER_LENGTH at hsum hn hfit' h4
  unfold kProtoMaxMessage at hfit'
  have hin : Inside ⟨x.w.conn.curPos, sizeT x.w.conn.remainPacketLen, n⟩ := by
    constructor
    · show sizeT x.w.conn.remainPacketLen < 2 ^ 31
      omega
    · show x.w.conn.curPos + sizeT x.w.conn.remainPacketLen ≤ n
      omega
  set c : PbConn := { x.w.conn with rbuf := rbuf, rbufLen := n } with hc
  obtain ⟨rbuf', overflow, hconn⟩ := read_conn { x.w with conn := c }
    (sizeT c.remainPacketLen) (nextRecv x.recvs)
  have hcalls := read_calls { x.w with conn := c } (sizeT c.remainPacketLen) (nextRecv x.recvs)
  have hbytes := @read_bytes { x.w with conn := c } (sizeT c.remainPacketLen) (nextRecv x.recvs)
  rw [packetTurn, hgrow]
  dsimp only
  generalize World.read { x.w with conn := c } (sizeT c.remainPacketLen) (nextRecv x.recvs) = r at *
  obtain ⟨w', g⟩ := r
  dsimp only at hconn hcalls hbytes
  have hfields : w'.conn.connStatus = .packet ∧ w'.conn.headerLen = x.w.conn.headerLen ∧
      w'.conn.curPos = x.w.conn.curPos ∧
      w'.conn.remainPacketLen = x.w.conn.remainPacketLen ∧ w'.conn.rbufLen = n := by
    rw [hconn]
    exact ⟨hp, rfl, rfl, rfl, rfl⟩
  obtain ⟨hp', hlen', hcur', hrem', hn'⟩ := hfields
  have hgrew' : ∀ x' : Call, x'.w.conn.reads = w'.conn.reads → Grew base x' :=
    fun x' hx' => hgrew.snoc hin (by rw [hx', hconn])
  have hinv' : Inv w'.conn := by
    refine ⟨hn' ▸ hroom, hn' ▸ hsmall, ?_⟩
    rw [At, hp', hlen', hcur', hrem']
    exact ⟨hlen, .inr ⟨hfit, h4, h0, hsum⟩⟩
  have hno : ¬kProtoMaxMessage ≤ x.w.conn.headerLen + COMMAND_HEADER_LENGTH := not_le.mpr hfit
  cases g with
  | eagain => exact ⟨hinv', hgrew' _ rfl, hcalls, rfl, by simp, fun h => absurd h hno⟩
  | error => exact ⟨hinv', hgrew' _ rfl, hcalls, rfl, by simp, fun h => absurd h hno⟩
  | eof => exact ⟨hinv', hgrew' _ rfl, hcalls, rfl, by simp, fun h => absurd h hno⟩
  | bytes bs =>
    obtain ⟨hpos, hle⟩ := hbytes rfl
    have hle' : bs.length ≤ x.w.conn.remainPacketLen.toNat := hcount ▸ hle
    have hmod : uint32 (w'.conn.curPos + bs.length) = x.w.conn.curPos + bs.length := by
      rw [hcur', uint32_of_lt (by omega)]
    have hint : int32 (w'.conn.remainPacketLen - bs.length) =
        x.w.conn.remainPacketLen - bs.length := by
      rw [hrem', int32_of_lt (by omega) (by omega)]
    dsimp only
    rw [hmod, hint]
    by_cases hz : x.w.conn.remainPacketLen - (bs.length : ℤ) = 0
    · rw [if_pos hz]
      refine ⟨⟨hinv'.room, hinv'.small, ?_⟩, hgrew' _ rfl, hcalls, rfl, fun _ => rfl,
        fun h => absurd h hno⟩
      show x.w.conn.curPos + bs.length < kProtoMaxMessage
      unfold kProtoMaxMessage
      omega
    · rw [if_neg hz]
      refine ⟨⟨hinv'.room, hinv'.small, ?_⟩, hgrew' _ rfl, hcalls, rfl, by simp,
        fun h => absurd h hno⟩
      simp only [At, hp', hlen']
      refine ⟨hlen, .inr ⟨hfit, ?_, by omega, ?_⟩⟩
      · show 4 ≤ x.w.conn.curPos + bs.length
        omega
      · show ((x.w.conn.curPos + bs.length : ℕ) : ℤ) + (x.w.conn.remainPacketLen - bs.length) =
          (4 : ℕ) + x.w.conn.headerLen
        omega

theorem completeTurn_spec {x : Call} (deal : ℤ) (hinv : Inv x.w.conn) :
    Inv (completeTurn x deal).w.conn ∧
      (completeTurn x deal).w.conn.reads = x.w.conn.reads ∧
      (completeTurn x deal).w.calls = x.w.calls ∧ ∃ st, (completeTurn x deal).status = some st := by
  unfold completeTurn
  dsimp only
  split_ifs
  · exact ⟨hinv, rfl, rfl, _, rfl⟩
  · exact ⟨⟨hinv.room, hinv.small, Nat.zero_lt_succ _⟩, rfl, rfl, _, rfl⟩

/-- The rest of a call that has come to `kComplete`, or that has returned. -/
theorem turns_complete {e : Env} {x : Call} (fuel : ℕ)
    (hc : x.status = none → x.w.conn.connStatus = .complete) (hinv : Inv x.w.conn) :
    Inv (turns e (fuel + 1) x).w.conn ∧
      (turns e (fuel + 1) x).w.conn.reads = x.w.conn.reads ∧
      (turns e (fuel + 1) x).w.calls = x.w.calls ∧
      (∀ st, x.status = some st → turns e (fuel + 1) x = x) := by
  cases hst : x.status with
  | some st =>
    rw [turns_of_isSome (by rw [hst]; rfl)]
    exact ⟨hinv, rfl, rfl, fun _ _ => rfl⟩
  | none =>
    obtain ⟨hinv', hreads, hcalls, st, hst'⟩ := completeTurn_spec e.deal hinv
    have hturn : turn e x = completeTurn x e.deal := by rw [turn, hc hst]
    rw [turns_succ hst, hturn, turns_of_isSome (by rw [hst']; rfl)]
    exact ⟨hinv', hreads, hcalls, by simp⟩

/-- What a call does from `kPacket` on. -/
theorem turns_packet {base : List Read} {e : Env} {x : Call} (fuel : ℕ) (hst : x.status = none)
    (hinv : Inv x.w.conn) (hp : x.w.conn.connStatus = .packet) (hgrew : Grew base x)
    (hok : x.w.conn.headerLen + COMMAND_HEADER_LENGTH < 2 ^ 32 ∨ e.realloc = false) :
    Inv (turns e (fuel + 2) x).w.conn ∧ Grew base (turns e (fuel + 2) x) ∧
      (turns e (fuel + 2) x).w.calls = x.w.calls ∧
      (kProtoMaxMessage ≤ x.w.conn.headerLen + COMMAND_HEADER_LENGTH →
        (turns e (fuel + 2) x).status = some .fullError ∧
          (turns e (fuel + 2) x).dealt = x.dealt) := by
  obtain ⟨hinv', ⟨rs, hrs, hin⟩, hcalls, hdealt, hnone, hfull⟩ :=
    packetTurn_spec hinv hp hgrew hok
  have hturn : turn e x = packetTurn x e.realloc := by rw [turn, hp]
  obtain ⟨hinv'', hreads, hcalls', hend⟩ := turns_complete (e := e) fuel hnone hinv'
  rw [turns_succ hst, hturn]
  refine ⟨hinv'', ⟨rs, by rw [hreads, hrs], hin⟩, by rw [hcalls', hcalls], fun hbig => ?_⟩
  rw [hend _ (hfull hbig)]
  exact ⟨hfull hbig, hdealt⟩

theorem newReads_of_grew {w : World} {x : Call} {c : List (Option ReadStatus × List (ℕ × Bytes))}
    (h : Grew w.conn.reads x) : ∀ r ∈ newReads w { x.w with calls := c }, Inside r := by
  obtain ⟨rs, hrs, hin⟩ := h
  intro r hr
  rw [newReads, hrs, List.drop_left] at hr
  exact hin r hr

/-- A call as a whole, from what its turns do. -/
theorem safe_of_turns {w : World} {e : Env} {y : Call}
    (heq : turns e 3 ⟨w, e.recvs, [], none⟩ = y) (hinv : Inv y.w.conn)
    (hgrew : Grew w.conn.reads y)
    (hfull : ∀ h ∈ header w e, kProtoMaxMessage ≤ h + COMMAND_HEADER_LENGTH →
      y.status = some .fullError ∧ y.dealt = []) :
    Inv (getRequest w e).conn ∧ Safe w (.getRequest e) := by
  have hcall : getRequest w e = { y.w with calls := y.w.calls ++ [(y.status, y.dealt)] } := by
    rw [getRequest, heq]
  rw [Safe, hcall]
  refine ⟨hinv, newReads_of_grew hgrew, fun h hh hbig => ?_⟩
  obtain ⟨hst, hd⟩ := hfull h hh hbig
  simp [hst, hd]

/-- **One call of `GetRequest` whose header is handled.** -/
theorem getRequest_safe {w : World} {e : Env} (hinv : Inv w.conn)
    (hok : Handled w (.getRequest e)) :
    Inv (getRequest w e).conn ∧ Safe w (.getRequest e) := by
  have hgrew : Grew w.conn.reads ⟨w, e.recvs, [], none⟩ := ⟨[], by simp, by simp⟩
  have hat := hinv.at_
  cases hs : w.conn.connStatus with
  | header =>
    obtain ⟨hinv', hgrew', -, hdealt, hcase⟩ :=
      headerTurn_spec (e := e) (x := ⟨w, e.recvs, [], none⟩) rfl rfl hinv hs hgrew
    have heq : turns e 3 ⟨w, e.recvs, [], none⟩ =
        turns e 2 (headerTurn ⟨w, e.recvs, [], none⟩) := by
      rw [turns_succ rfl, turn, hs]
    rcases hcase with ⟨hst, hp, hheader⟩ | ⟨⟨st, hst⟩, hheader⟩
    · obtain ⟨hinv'', hgrew'', -, hfull⟩ := turns_packet 0 hst hinv' hp hgrew' (hok _ hheader)
      refine safe_of_turns heq hinv'' hgrew'' fun h hh hbig => ?_
      obtain rfl : (headerTurn ⟨w, e.recvs, [], none⟩).w.conn.headerLen = h := by
        rw [hheader] at hh
        simpa using hh
      exact ⟨(hfull hbig).1, (hfull hbig).2.trans hdealt⟩
    · have hend : turns e 2 (headerTurn ⟨w, e.recvs, [], none⟩) =
          headerTurn ⟨w, e.recvs, [], none⟩ := turns_of_isSome (by rw [hst]; rfl)
      refine safe_of_turns (heq.trans hend) hinv' hgrew' fun h hh _ => ?_
      rw [hheader] at hh
      cases hh
  | packet =>
    have hheader : header w e = some w.conn.headerLen := by rw [header, hs]
    obtain ⟨hinv', hgrew', -, hfull⟩ :=
      turns_packet (e := e) (x := ⟨w, e.recvs, [], none⟩) 1 rfl hinv hs hgrew (hok _ hheader)
    refine safe_of_turns rfl hinv' hgrew' fun h hh hbig => ?_
    obtain rfl : w.conn.headerLen = h := by
      rw [hheader] at hh
      simpa using hh
    exact hfull hbig
  | complete =>
    obtain ⟨hinv', hreads, -, -⟩ :=
      turns_complete (e := e) (x := ⟨w, e.recvs, [], none⟩) 2 (fun _ => hs) hinv
    refine safe_of_turns rfl hinv' ⟨[], by rw [hreads]; simp, by simp⟩ fun h hh _ => ?_
    rw [header, hs] at hh
    cases hh
  | buildObuf => rw [At, hs] at hat; exact hat.elim
  | writeObuf => rw [At, hs] at hat; exact hat.elim

theorem tryResizeBuffer_inv {c : PbConn} (hinv : Inv c) (idletime : ℤ) (realloc : Bool) :
    Inv (tryResizeBuffer c idletime realloc) := by
  have hcur : c.curPos < 2 ^ 29 := by
    have hat := hinv.at_
    unfold At COMMAND_HEADER_LENGTH kProtoMaxMessage at hat
    split at hat <;> first | omega | exact hat.elim
  have hsize := le_shrinkSize hcur
  have hsmall := hinv.small
  unfold tryResizeBuffer
  dsimp only
  split_ifs with h1 h2
  · exact ⟨hsize.1, h2.trans hsmall, hinv.at_⟩
  · exact ⟨hsize.1, h2.trans hsmall, hinv.at_⟩
  · exact hinv
  · exact hinv

/-! ### Headers that wrap around -/

/-- The body read of a frame whose size wraps around has a negative count. -/
theorem packetTurn_wraps {x : Call} (hinv : Inv x.w.conn) (hp : x.w.conn.connStatus = .packet)
    (hwrap : 2 ^ 32 ≤ x.w.conn.headerLen + COMMAND_HEADER_LENGTH) :
    (∃ r, (packetTurn x true).w.conn.reads = x.w.conn.reads ++ [r] ∧ ¬Inside r) ∧
      ((packetTurn x true).status = none →
        (packetTurn x true).w.conn.connStatus = .complete) := by
  have hat := hinv.at_
  have hroom := hinv.room
  have hsmall := hinv.small
  rw [At, hp] at hat
  unfold COMMAND_HEADER_LENGTH at hat hwrap
  unfold PB_IOBUF_LEN at hroom
  unfold kProtoMaxMessage at hat hsmall
  obtain ⟨hlen, hcur, hrem⟩ : x.w.conn.headerLen < 2 ^ 32 ∧ x.w.conn.curPos = 4 ∧
      x.w.conn.remainPacketLen = int32 x.w.conn.headerLen := by omega
  have hint : int32 (x.w.conn.headerLen : ℤ) = (x.w.conn.headerLen : ℤ) - 2 ^ 32 := by
    unfold int32
    rw [Int.bmod_def]
    push_cast
    split_ifs <;> omega
  have hcount : 2 ^ 31 ≤ sizeT x.w.conn.remainPacketLen := by
    rw [hrem, hint]
    unfold sizeT
    omega
  have hgrow : grow x.w.conn true = ({ x.w.conn with
      rbuf := some ((x.w.conn.rbuf.getD []).take (x.w.conn.headerLen + 4 - 2 ^ 32))
      rbufLen := x.w.conn.headerLen + 4 - 2 ^ 32 }, true) := by
    have hnew : uint32 (x.w.conn.headerLen + 4) = x.w.conn.headerLen + 4 - 2 ^ 32 := by
      unfold uint32
      omega
    unfold grow COMMAND_HEADER_LENGTH kProtoMaxMessage
    rw [if_pos (by rw [sub32_of_le (by omega) (by omega)]; omega)]
    dsimp only
    rw [hnew, if_pos (by omega), if_pos rfl]
  set c : PbConn := { x.w.conn with
    rbuf := some ((x.w.conn.rbuf.getD []).take (x.w.conn.headerLen + 4 - 2 ^ 32))
    rbufLen := x.w.conn.headerLen + 4 - 2 ^ 32 } with hc
  have hbad : ¬Inside ⟨c.curPos, sizeT c.remainPacketLen, c.rbufLen⟩ := by
    rintro ⟨hlt, -⟩
    exact absurd hlt (not_lt.mpr hcount)
  obtain ⟨rbuf', overflow, hconn⟩ := read_conn { x.w with conn := c }
    (sizeT c.remainPacketLen) (nextRecv x.recvs)
  rw [packetTurn, hgrow]
  dsimp only
  generalize World.read { x.w with conn := c } (sizeT c.remainPacketLen) (nextRecv x.recvs) = r at *
  obtain ⟨w', g⟩ := r
  dsimp only at hconn
  have hreads : ∀ x' : Call, x'.w.conn.reads = w'.conn.reads →
      ∃ r, x'.w.conn.reads = x.w.conn.reads ++ [r] ∧ ¬Inside r :=
    fun x' hx' => ⟨_, by rw [hx', hconn], hbad⟩
  cases g with
  | eagain => exact ⟨hreads _ rfl, by simp⟩
  | error => exact ⟨hreads _ rfl, by simp⟩
  | eof => exact ⟨hreads _ rfl, by simp⟩
  | bytes bs =>
    dsimp only
    by_cases hz : int32 (w'.conn.remainPacketLen - bs.length) = 0
    · rw [if_pos hz]
      exact ⟨hreads _ rfl, fun _ => rfl⟩
    · rw [if_neg hz]
      exact ⟨hreads _ rfl, by simp⟩

/-- No more is read once the body is complete. -/
theorem turns_complete_reads {e : Env} {x : Call} (fuel : ℕ)
    (hc : x.status = none → x.w.conn.connStatus = .complete) :
    (turns e (fuel + 1) x).w.conn.reads = x.w.conn.reads := by
  cases hst : x.status with
  | some st => rw [turns_of_isSome (by rw [hst]; rfl)]
  | none =>
    rw [turns_succ hst, turn, hc hst]
    unfold completeTurn
    dsimp only
    split_ifs <;> rw [turns_of_isSome rfl]

/-- A call whose frame wraps around reads outside of the buffer. -/
theorem not_safe_of_wraps {w : World} {e : Env} {h : ℕ} (hinv : Inv w.conn)
    (hh : h ∈ header w e) (hwrap : 2 ^ 32 ≤ h + COMMAND_HEADER_LENGTH) (hre : e.realloc = true) :
    ¬Safe w (.getRequest e) := by
  rintro ⟨hreads, -⟩
  -- the state in which the call comes to the body
  obtain ⟨x, fuel, hst, hinv', hp, hlen, heq, pre, hpre⟩ : ∃ x fuel, x.status = none ∧
      Inv x.w.conn ∧ x.w.conn.connStatus = .packet ∧ x.w.conn.headerLen = h ∧
      turns e 3 ⟨w, e.recvs, [], none⟩ = turns e (fuel + 2) x ∧
      ∃ pre, x.w.conn.reads = w.conn.reads ++ pre := by
    cases hs : w.conn.connStatus with
    | header =>
      obtain ⟨hinv', ⟨rs, hrs, -⟩, -, -, hcase⟩ :=
        headerTurn_spec (e := e) (x := ⟨w, e.recvs, [], none⟩) rfl rfl hinv hs
          (⟨[], by simp, by simp⟩ : Grew w.conn.reads _)
      rcases hcase with ⟨hst, hp, hheader⟩ | ⟨-, hheader⟩
      · refine ⟨headerTurn ⟨w, e.recvs, [], none⟩, 0, hst, hinv', hp, ?_, ?_, rs, hrs⟩
        · rw [hheader] at hh
          simpa using hh
        · rw [turns_succ rfl, turn, hs]
      · rw [hheader] at hh
        cases hh
    | packet =>
      refine ⟨⟨w, e.recvs, [], none⟩, 1, rfl, hinv, hs, ?_, rfl, [], by simp⟩
      rw [header, hs] at hh
      simpa using hh
    | complete => rw [header, hs] at hh; cases hh
    | buildObuf => rw [header, hs] at hh; cases hh
    | writeObuf => rw [header, hs] at hh; cases hh
  obtain ⟨⟨r, hr, hbad⟩, hnone⟩ := packetTurn_wraps hinv' hp (by rw [hlen]; exact hwrap)
  have hend : (turns e (fuel + 2) x).w.conn.reads = w.conn.reads ++ (pre ++ [r]) := by
    rw [turns_succ hst, turn, hp, hre]
    rw [turns_complete_reads fuel hnone, hr, hpre, List.append_assoc]
  refine hbad (hreads r ?_)
  show r ∈ (getRequest w e).conn.reads.drop w.conn.reads.length
  rw [getRequest, heq]
  dsimp only
  rw [hend, List.drop_left]
  exact List.mem_append_right _ List.mem_cons_self

/-- **A step is safe exactly if its header is handled.** -/
theorem safe_iff_handled {w : World} (op : Op) (hinv : Inv w.conn) : Safe w op ↔ Handled w op := by
  cases op with
  | getRequest e =>
    refine ⟨fun hsafe h hh => ?_, fun hok => (getRequest_safe hinv hok).2⟩
    by_contra hno
    obtain ⟨hwrap, hre⟩ := not_or.mp hno
    exact not_safe_of_wraps hinv hh (not_lt.mp hwrap) (by simpa using hre) hsafe
  | tryResizeBuffer idletime realloc => exact Iff.rfl

theorem step_inv {w : World} {op : Op} (hinv : Inv w.conn) (hok : Handled w op) :
    Inv (step w op).conn := by
  cases op with
  | getRequest e => exact (getRequest_safe hinv hok).1
  | tryResizeBuffer idletime realloc => exact tryResizeBuffer_inv hinv idletime realloc

theorem start_inv (input : Bytes) : Inv (start input).conn :=
  ⟨le_rfl, by show PB_IOBUF_LEN < kProtoMaxMessage; decide, Nat.zero_lt_succ _⟩

/-- **Which headers the connection and the client read inside their buffers.** In every run of a
connection, every read is inside the buffer and every header that does not fit is answered with
`kFullError` exactly if no step comes to the body of a frame whose size wraps around. The client
asks for no more than its buffer holds exactly if the header announces no more. -/
theorem bounds_iff (input : Bytes) (ops : List Op) (h : UInt32) :
    (Guarded step Safe (start input) ops ↔ Guarded step Handled (start input) ops) ∧
    ((∀ parse rs rbuf rest,
      ∀ n ∈ (recv parse rs { rbuf := rbuf, input := htonl h.toNat ++ rest }).1.asks,
        n ≤ kProtoMaxMessage) ↔ h.toNat ≤ kProtoMaxMessage) := by
  constructor
  · refine guarded_iff_of_inv (fun w => Inv w.conn) ?_ ?_ (start_inv input)
    · exact fun w op hinv hok => step_inv hinv hok
    · exact fun w op hinv => safe_iff_handled op hinv
  · exact asks_le_iff h.toNat_lt

/-- The header `0xfffffffd`: the buffer is shrunk to one byte, and the body read asks for -3. -/
theorem wrapped_header_not_safe :
    ¬Safe (start [255, 255, 255, 253, 1]) (.getRequest ⟨[.data 3, .data 0], true, 0⟩) ∧
    ¬∀ parse rs rbuf rest,
      ∀ n ∈ (recv parse rs { rbuf := rbuf, input := htonl 4294967293 ++ rest }).1.asks,
        n ≤ kProtoMaxMessage := by
  constructor
  · rintro ⟨hreads, -⟩
    exact absurd (hreads ⟨4, 2 ^ 64 - 3, 1⟩ (by decide +kernel)) (by decide)
  · intro hall
    have hmem : (4294967293 : ℕ) ∈
        (recv (fun _ => true) [.data 3] { rbuf := [], input := htonl 4294967293 ++ [] }).1.asks := by
      decide +kernel
    exact absurd (hall _ _ _ _ _ hmem) (by decide)

end Pink.Pb.Bounds
