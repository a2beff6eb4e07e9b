import Pink.Pb.Frames

/-! # A closed peer

`GetRequest` takes the result 0 of `read` for the end of the stream. A read of no bytes has this
result too, and it is issued for the body of an empty message. As long as the peer goes on, whatever
else happens, a call returns `kReadClose` exactly at such a message (`close_iff`).

The invariant does not speak of the whole buffer, which may be lost when `realloc` fails, but only
of the bytes of the header, and of the place in the stream (`Follows`). -/

namespace Pink.Pb.Closing

open Pink.Redis.Wire Pink.Lib.Runs Pink.Pb.Conn
open Pink.Pb.Frames (encode start turns_of_isSome turns_succ length_encode)
open Pink.Server.Threads (ReadStatus)

/-- No read of the step finds the end of the stream. -/
def Open : Op → Prop
  | .getRequest e => .closed ∉ e.recvs
  | .tryResizeBuffer _ _ => True

instance : DecidablePred Open
  | .getRequest e => inferInstanceAs (Decidable (_ ∉ e.recvs))
  | .tryResizeBuffer _ _ => .isTrue trivial

/-- A message up to the limit, possibly empty. -/
def Limited (m : Bytes) : Prop := m.length + COMMAND_HEADER_LENGTH < kProtoMaxMessage

instance (m : Bytes) : Decidable (Limited m) := inferInstanceAs (Decidable (_ < _))

theorem limited_lt {m : Bytes} (h : Limited m) : m.length + 4 < 2 ^ 29 := by
  unfold Limited COMMAND_HEADER_LENGTH kProtoMaxMessage at h
  omega

/-! ### The place in the stream -/

/-- The bytes of a header, followed by what has not been read, are the messages to come. Without a
buffer no byte of a header is read, and a buffer that is lost inside a header is not replaced. -/
def HeaderAt (todo : List Bytes) (w : World) : Prop :=
  w.conn.curPos < COMMAND_HEADER_LENGTH ∧
  match w.conn.rbuf with
  | some b => w.conn.curPos ≤ b.length ∧ b.take w.conn.curPos ++ w.input = todo.flatMap encode
  | none => w.conn.curPos = 0 ∧ w.input = todo.flatMap encode ∨ w.conn.rbufLen ≤ PB_IOBUF_LEN

/-- The first message is being read, `cur_pos_ - 4` bytes of it so far. -/
def PacketAt (todo : List Bytes) (w : World) : Prop :=
  ∃ m rest, todo = m :: rest ∧ w.conn.headerLen = m.length ∧
    COMMAND_HEADER_LENGTH ≤ w.conn.curPos ∧
    w.conn.curPos + w.conn.remainPacketLen = COMMAND_HEADER_LENGTH + m.length ∧
    0 ≤ w.conn.remainPacketLen ∧ (w.conn.remainPacketLen = 0 → m = []) ∧
    w.input = m.drop (w.conn.curPos - COMMAND_HEADER_LENGTH) ++ rest.flatMap encode

/-- **Where the connection is in the stream.** -/
def Follows (todo : List Bytes) (w : World) : Prop :=
  match w.conn.connStatus with
  | .header => HeaderAt todo w
  | .packet => PacketAt todo w
  | .complete => w.conn.curPos < 2 ^ 29 ∧ ∃ m rest, todo = m :: rest ∧ w.input = rest.flatMap encode
  | .buildObuf | .writeObuf => False

/-- The first four bytes of the messages to come are the header of the first of them. -/
theorem header_of_bytes {todo : List Bytes} {p input : Bytes}
    (h : p ++ input = todo.flatMap encode) (hp : p.length = COMMAND_HEADER_LENGTH) :
    ∃ m rest, todo = m :: rest ∧ p = htonl m.length ∧ input = m ++ rest.flatMap encode := by
  cases todo with
  | nil =>
    have := congrArg List.length h
    rw [List.length_append, hp] at this
    simp [COMMAND_HEADER_LENGTH] at this
  | cons m rest =>
    rw [List.flatMap_cons, encode, List.append_assoc] at h
    obtain ⟨h1, h2⟩ := List.append_inj h (by rw [hp]; rfl)
    exact ⟨m, rest, rfl, h1, h2⟩

/-- **What a read can do while the peer goes on**: nothing, or bring bytes of the input to the
buffer. It returns 0 only if it asks for nothing. -/
theorem read_open {w : World} {n : ℕ} {r : Recv} (hr : r ≠ .closed) :
    (∃ w' g, w.read n r = (w', g) ∧ w'.input = w.input ∧ w'.calls = w.calls ∧
      w'.conn = { w.conn with reads := w'.conn.reads } ∧ (∀ bs, g ≠ .bytes bs) ∧
      (g = .eof → n = 0)) ∨
    ∃ w' bs b, w.read n r = (w', .bytes bs) ∧ w.conn.rbuf = some b ∧ 0 < bs.length ∧
      bs.length ≤ n ∧ w.input = bs ++ w'.input ∧ w'.calls = w.calls ∧
      w'.conn = { w.conn with
        rbuf := some (store b w.conn.curPos bs)
        overflow := w'.conn.overflow
        reads := w'.conn.reads } := by
  have hans : (∃ bs, answer w.input n r = .bytes bs ∧ 0 < bs.length ∧ bs.length ≤ n ∧
      w.input = bs ++ w.input.drop bs.length) ∨
      (∀ bs, answer w.input n r ≠ .bytes bs) ∧ (answer w.input n r = .eof → n = 0) := by
    by_cases hn : n = 0
    · exact .inr ⟨by simp [answer, hn], fun _ => hn⟩
    cases r with
    | closed => exact absurd rfl hr
    | eagain => exact .inr ⟨by simp [answer, hn], by simp [answer, hn]⟩
    | failed => exact .inr ⟨by simp [answer, hn], by simp [answer, hn]⟩
    | data k =>
      by_cases hin : w.input = []
      · exact .inr ⟨by simp [answer, hn, hin], by simp [answer, hn, hin]⟩
      · have hlen := List.length_pos_iff.mpr hin
        refine .inl ⟨w.input.take (min (k + 1) n), by simp [answer, hn, hin], ?_, ?_, ?_⟩
        · rw [List.length_take]; omega
        · rw [List.length_take]; omega
        · rw [List.length_take, ← List.drop_eq_drop_min, List.take_append_drop]
  unfold World.read
  dsimp only
  rcases hans with ⟨bs, hbs, hpos, hle, hsplit⟩ | ⟨hno, heof⟩
  · rw [hbs]
    cases hb : w.conn.rbuf with
    | none => exact .inl ⟨_, .error, rfl, rfl, rfl, by simp, by simp, by simp⟩
    | some b => exact .inr ⟨_, bs, b, rfl, rfl, hpos, hle, hsplit, rfl, rfl⟩
  · left
    generalize answer w.input n r = g at hno heof
    cases g with
    | bytes bs => exact absurd rfl (hno bs)
    | eagain => exact ⟨_, .eagain, rfl, rfl, rfl, rfl, hno, heof⟩
    | eof => exact ⟨_, .eof, rfl, rfl, rfl, rfl, hno, heof⟩
    | error => exact ⟨_, .error, rfl, rfl, rfl, rfl, hno, heof⟩

/-! ### The turns of a call -/

/-- What a turn leaves: a place in the stream, reads that do not find its end, and `kReadClose` only
at an empty message. -/
structure Left (todo : List Bytes) (x : Call) : Prop where
  follows : Follows todo x.w
  recvs : .closed ∉ x.recvs
  close : x.status = some .readClose → todo.head? = some []

theorem nextRecv_open {rs : List Recv} (h : .closed ∉ rs) : nextRecv rs ≠ .closed := by
  cases rs with
  | nil => simp [nextRecv]
  | cons r rs => simpa [nextRecv, eq_comm] using (not_or.mp (List.mem_cons.not.mp h)).1

theorem tail_open {rs : List Recv} (h : .closed ∉ rs) : .closed ∉ rs.tail :=
  fun hr => h (List.mem_of_mem_tail hr)

theorem headerTurn_left {todo : List Bytes} {x : Call} (hm : ∀ m ∈ todo, Limited m)
    (hst : x.status = none) (hh : x.w.conn.connStatus = .header) (h : Left todo x) :
    Left todo (headerTurn x) := by
  obtain ⟨hfollows, hrecvs, -⟩ := h
  rw [Follows, hh] at hfollows
  obtain ⟨hlt, hbuf⟩ := hfollows
  have hsub : sub32 COMMAND_HEADER_LENGTH x.w.conn.curPos =
      COMMAND_HEADER_LENGTH - x.w.conn.curPos := sub32_of_le hlt.le (by decide)
  unfold headerTurn
  rcases read_open (w := x.w) (n := sub32 COMMAND_HEADER_LENGTH x.w.conn.curPos)
      (nextRecv_open hrecvs) with
    ⟨w', g, hread, hin, -, hconn, hno, heof⟩ | ⟨w', bs, b, hread, hb, hpos, hle, hin, -, hconn⟩
  · -- nothing is read, and the place is the same
    have hfollows' : Follows todo w' := by
      rw [Follows, hconn, hh]
      show _ ∧ _
      rw [hin, hconn]
      exact ⟨hlt, hbuf⟩
    rw [hread]
    cases g with
    | bytes bs => exact absurd rfl (hno bs)
    | eagain => exact ⟨hfollows', tail_open hrecvs, by simp⟩
    | error => exact ⟨hfollows', tail_open hrecvs, by simp⟩
    | eof =>
      have := heof rfl
      omega
  · rw [hb] at hbuf
    obtain ⟨hcur, hbytes⟩ := hbuf
    unfold COMMAND_HEADER_LENGTH at hlt hsub hle
    have hcur' : w'.conn.curPos = x.w.conn.curPos := by rw [hconn]
    have hbuf' : w'.conn.rbuf = some (store b x.w.conn.curPos bs) := by rw [hconn]
    have hmod : uint32 (w'.conn.curPos + bs.length) = x.w.conn.curPos + bs.length := by
      rw [hcur', uint32_of_lt (by omega)]
    have hstored : (b.take x.w.conn.curPos ++ bs) ++ w'.input = todo.flatMap encode := by
      rw [List.append_assoc, ← hin, hbytes]
    rw [hread]
    dsimp only
    rw [hmod]
    by_cases h4 : x.w.conn.curPos + bs.length = COMMAND_HEADER_LENGTH
    · obtain ⟨m, rest, rfl, hp, hrest⟩ := header_of_bytes hstored (by simp [hcur, h4])
      have hlim := limited_lt (hm m List.mem_cons_self)
      have hn : ntohl (w'.conn.rbuf.getD []) = m.length := by
        rw [hbuf', Option.getD_some, ← List.take_append_drop (x.w.conn.curPos + bs.length)
          (store b x.w.conn.curPos bs), take_store hcur, hp, ntohl_htonl (by omega)]
      have hint : int32 (m.length : ℤ) = m.length := int32_of_lt (by omega) (by omega)
      rw [if_pos h4, hn, hint]
      refine ⟨⟨m, rest, rfl, rfl, h4.ge, ?_, Int.natCast_nonneg _, ?_, ?_⟩, tail_open hrecvs,
        by simp [hst]⟩
      · show ((x.w.conn.curPos + bs.length : ℕ) : ℤ) + m.length = _
        rw [h4]
      · show (m.length : ℤ) = 0 → m = []
        simp
      · show w'.input = m.drop (x.w.conn.curPos + bs.length - COMMAND_HEADER_LENGTH) ++ _
        rw [hrest, h4, Nat.sub_self, List.drop_zero]
    · rw [if_neg h4]
      refine ⟨?_, tail_open hrecvs, by simp⟩
      have hstat : w'.conn.connStatus = .header := by rw [hconn]; exact hh
      unfold COMMAND_HEADER_LENGTH at h4
      simp only [Follows, hstat, HeaderAt, hbuf', COMMAND_HEADER_LENGTH]
      exact ⟨by omega, le_length_store hcur, by rw [take_store hcur, hstored]⟩

theorem grow_fields (c : PbConn) (realloc : Bool) : (grow c realloc).1 =
    { c with rbuf := (grow c realloc).1.rbuf, rbufLen := (grow c realloc).1.rbufLen } := by
  unfold grow
  dsimp only
  split_ifs <;> rfl

/-- The bytes read are those of the body that come next. -/
theorem drop_read {m bs rest input input' : Bytes} {n : ℕ} (hin : input = m.drop n ++ rest)
    (hread : input = bs ++ input') (hle : bs.length ≤ (m.drop n).length) :
    input' = m.drop (n + bs.length) ++ rest := by
  have hdrop : input' = input.drop bs.length := by rw [hread, List.drop_left]
  rw [hdrop, hin, List.drop_append_of_le_length hle, List.drop_drop]

theorem packetTurn_left {todo : List Bytes} {x : Call} {realloc : Bool}
    (hm : ∀ m ∈ todo, Limited m) (hst : x.status = none)
    (hp : x.w.conn.connStatus = .packet) (h : Left todo x) : Left todo (packetTurn x realloc) := by
  obtain ⟨hfollows, hrecvs, -⟩ := h
  rw [Follows, hp] at hfollows
  obtain ⟨m, rest, rfl, hlen, h4, hsum, h0, hempty, hin⟩ := hfollows
  have hlim := limited_lt (hm m List.mem_cons_self)
  have hfields := grow_fields x.w.conn realloc
  unfold packetTurn
  generalize grow x.w.conn realloc = r at hfields
  obtain ⟨c, ok⟩ := r
  dsimp only at hfields
  have hsame : ∀ w : World, w.input = x.w.input → w.conn.connStatus = .packet →
      w.conn.headerLen = x.w.conn.headerLen → w.conn.curPos = x.w.conn.curPos →
      w.conn.remainPacketLen = x.w.conn.remainPacketLen → Follows (m :: rest) w := by
    intro w h1 h2 h3 h4' h5
    simp only [Follows, h2, PacketAt, h1, h3, h4', h5]
    exact ⟨m, rest, rfl, hlen, h4, hsum, h0, hempty, hin⟩
  obtain ⟨hp', hlen', hcur', hrem'⟩ : c.connStatus = .packet ∧
      c.headerLen = x.w.conn.headerLen ∧ c.curPos = x.w.conn.curPos ∧
      c.remainPacketLen = x.w.conn.remainPacketLen := by
    rw [hfields]
    exact ⟨hp, rfl, rfl, rfl⟩
  cases ok with
  | false => exact ⟨hsame _ rfl hp' hlen' hcur' hrem', hrecvs, by simp⟩
  | true =>
    unfold COMMAND_HEADER_LENGTH at h4 hsum hin
    have hcount : sizeT c.remainPacketLen = x.w.conn.remainPacketLen.toNat := by
      rw [hrem', sizeT_of_nonneg h0 (by omega)]
    dsimp only
    rcases read_open (w := { x.w with conn := c }) (n := sizeT c.remainPacketLen)
        (nextRecv_open hrecvs) with
      ⟨w', g, hread, hin', -, hconn, hno, heof⟩ | ⟨w', bs, b, hread, -, hpos, hle, hin', -, hconn⟩
    · have hfollows' : Follows (m :: rest) w' := by
        refine hsame w' hin' ?_ ?_ ?_ ?_ <;> rw [hconn]
        · exact hp'
        · exact hlen'
        · exact hcur'
        · exact hrem'
      rw [hread]
      cases g with
      | bytes bs => exact absurd rfl (hno bs)
      | eagain => exact ⟨hfollows', tail_open hrecvs, by simp⟩
      | error => exact ⟨hfollows', tail_open hrecvs, by simp⟩
      | eof =>
        have hzero := heof rfl
        have hm0 : m = [] := hempty (by omega)
        exact ⟨hfollows', tail_open hrecvs, fun _ => by rw [hm0]; rfl⟩
    · obtain ⟨hp'', hlen'', hcur'', hrem''⟩ : w'.conn.connStatus = .packet ∧
          w'.conn.headerLen = x.w.conn.headerLen ∧ w'.conn.curPos = x.w.conn.curPos ∧
          w'.conn.remainPacketLen = x.w.conn.remainPacketLen := by
        rw [hconn]
        exact ⟨hp', hlen', hcur', hrem'⟩
      have hmod : uint32 (w'.conn.curPos + bs.length) = x.w.conn.curPos + bs.length := by
        rw [hcur'', uint32_of_lt (by omega)]
      have hint : int32 (w'.conn.remainPacketLen - bs.length) =
          x.w.conn.remainPacketLen - bs.length := by
        rw [hrem'', int32_of_lt (by omega) (by omega)]
      have hbody : w'.input = m.drop (x.w.conn.curPos + bs.length - 4) ++ rest.flatMap encode := by
        have hdrop := drop_read hin hin' (by rw [List.length_drop]; omega)
        rwa [← Nat.sub_add_comm h4] at hdrop
      rw [hread]
      dsimp only
      rw [hmod, hint]
      by_cases hz : x.w.conn.remainPacketLen - (bs.length : ℤ) = 0
      · rw [if_pos hz]
        refine ⟨⟨?_, m, rest, rfl, ?_⟩, tail_open hrecvs, by simp [hst]⟩
        · show x.w.conn.curPos + bs.length < 2 ^ 29
          omega
        · show w'.input = _
          rw [hbody, List.drop_eq_nil_of_le (by omega), List.nil_append]
      · rw [if_neg hz]
        refine ⟨?_, tail_open hrecvs, by simp⟩
        simp only [Follows, hp'', PacketAt, hlen'', COMMAND_HEADER_LENGTH]
        refine ⟨m, rest, rfl, hlen, by omega, ?_, by omega, fun h => absurd h hz, hbody⟩
        push_cast
        omega

theorem completeTurn_left {todo : List Bytes} {x : Call} {deal : ℤ}
    (hc : x.w.conn.connStatus = .complete) (h : Left todo x) :
    ∃ todo', todo' <:+ todo ∧ Left todo' (completeTurn x deal) := by
  obtain ⟨hfollows, hrecvs, -⟩ := h
  have hfollows' := hfollows
  rw [Follows, hc] at hfollows'
  obtain ⟨hcur, m, rest, rfl, hin⟩ := hfollows'
  unfold completeTurn
  by_cases hd : deal ≠ 0
  · refine ⟨m :: rest, List.suffix_refl _, ?_⟩
    dsimp only
    rw [if_pos hd]
    exact ⟨hfollows, hrecvs, by simp⟩
  · refine ⟨rest, List.suffix_cons _ _, ?_⟩
    dsimp only
    rw [if_neg hd]
    refine ⟨⟨Nat.zero_lt_succ _, ?_⟩, hrecvs, by simp⟩
    dsimp only
    cases x.w.conn.rbuf with
    | none => exact .inl ⟨rfl, hin⟩
    | some b => exact ⟨Nat.zero_le _, by rw [List.take_zero, List.nil_append]; exact hin⟩

/-- **One turn while the peer goes on.** -/
theorem turn_left {todo : List Bytes} {e : Env} {x : Call} (hm : ∀ m ∈ todo, Limited m)
    (hst : x.status = none) (h : Left todo x) :
    ∃ todo', todo' <:+ todo ∧ Left todo' (turn e x) := by
  unfold turn
  have hfollows := h.follows
  cases hs : x.w.conn.connStatus with
  | header => exact ⟨todo, List.suffix_refl _, headerTurn_left hm hst hs h⟩
  | packet => exact ⟨todo, List.suffix_refl _, packetTurn_left hm hst hs h⟩
  | complete => exact completeTurn_left hs h
  | buildObuf => rw [Follows, hs] at hfollows; exact hfollows.elim
  | writeObuf => rw [Follows, hs] at hfollows; exact hfollows.elim

theorem turns_left {e : Env} (fuel : ℕ) : ∀ {todo : List Bytes} {x : Call},
    (∀ m ∈ todo, Limited m) → Left todo x → ∃ todo', todo' <:+ todo ∧ Left todo' (turns e fuel x) := by
  induction fuel with
  | zero => exact fun _ h => ⟨_, List.suffix_refl _, h⟩
  | succ fuel ih =>
    intro todo x hm h
    cases hst : x.status with
    | some st =>
      rw [turns_of_isSome (by rw [hst]; rfl)]
      exact ⟨todo, List.suffix_refl _, h⟩
    | none =>
      obtain ⟨todo', hsuf, h'⟩ := turn_left (e := e) hm hst h
      obtain ⟨todo'', hsuf', h''⟩ := ih (fun m hmem => hm m (hsuf.subset hmem)) h'
      rw [turns_succ hst]
      exact ⟨todo'', hsuf'.trans hsuf, h''⟩

theorem turn_calls (e : Env) (x : Call) : (turn e x).w.calls = x.w.calls := by
  unfold turn
  cases x.w.conn.connStatus with
  | header =>
    have hcalls := read_calls x.w (sub32 COMMAND_HEADER_LENGTH x.w.conn.curPos) (nextRecv x.recvs)
    dsimp only
    unfold headerTurn
    generalize x.w.read (sub32 COMMAND_HEADER_LENGTH x.w.conn.curPos) (nextRecv x.recvs) = r
      at hcalls
    obtain ⟨w', g⟩ := r
    cases g with
    | bytes bs =>
      dsimp only
      split_ifs <;> exact hcalls
    | eagain => exact hcalls
    | eof => exact hcalls
    | error => exact hcalls
  | packet =>
    dsimp only
    unfold packetTurn
    generalize grow x.w.conn e.realloc = r
    obtain ⟨c, ok⟩ := r
    cases ok with
    | false => rfl
    | true =>
      have hcalls := read_calls { x.w with conn := c } (sizeT c.remainPacketLen) (nextRecv x.recvs)
      dsimp only at hcalls ⊢
      generalize World.read { x.w with conn := c } (sizeT c.remainPacketLen) (nextRecv x.recvs) = r
        at hcalls
      obtain ⟨w', g⟩ := r
      cases g with
      | bytes bs =>
        dsimp only
        split_ifs <;> exact hcalls
      | eagain => exact hcalls
      | eof => exact hcalls
      | error => exact hcalls
  | complete =>
    dsimp only
    unfold completeTurn
    dsimp only
    split_ifs <;> rfl
  | buildObuf => rfl
  | writeObuf => rfl

theorem turns_calls (e : Env) (fuel : ℕ) : ∀ x : Call, (turns e fuel x).w.calls = x.w.calls := by
  induction fuel with
  | zero => exact fun _ => rfl
  | succ fuel ih =>
    intro x
    rw [turns]
    split_ifs
    · rfl
    · rw [ih, turn_calls]

/-! ### Runs -/

/-- The connection follows the stream, and has returned `kReadClose` only at an empty message. -/
structure Inv (msgs : List Bytes) (w : World) : Prop where
  follows : ∃ todo, todo <:+ msgs ∧ Follows todo w
  close : ∀ c ∈ w.calls, c.1 = some .readClose → [] ∈ msgs

theorem getRequest_inv {msgs : List Bytes} {w : World} {e : Env} (hm : ∀ m ∈ msgs, Limited m)
    (he : .closed ∉ e.recvs) (h : Inv msgs w) : Inv msgs (getRequest w e) := by
  obtain ⟨⟨todo, hsuf, hfollows⟩, hclose⟩ := h
  obtain ⟨todo', hsuf', hleft⟩ := turns_left (e := e) 3 (x := ⟨w, e.recvs, [], none⟩)
    (fun m hmem => hm m (hsuf.subset hmem)) ⟨hfollows, he, by simp⟩
  have hcalls := turns_calls e 3 ⟨w, e.recvs, [], none⟩
  unfold getRequest
  generalize turns e 3 ⟨w, e.recvs, [], none⟩ = x at hleft hcalls
  refine ⟨⟨todo', hsuf'.trans hsuf, hleft.follows⟩, ?_⟩
  intro c hc hst
  rcases List.mem_append.mp hc with hc | hc
  · exact hclose c (by rw [← show x.w.calls = w.calls from hcalls]; exact hc) hst
  · rw [List.mem_singleton.mp hc] at hst
    exact (hsuf'.trans hsuf).subset (List.mem_of_mem_head? (hleft.close hst))

theorem shrinkSize_header {curPos : ℕ} (h : curPos < COMMAND_HEADER_LENGTH) :
    shrinkSize curPos = PB_IOBUF_LEN := by
  unfold COMMAND_HEADER_LENGTH at h
  unfold shrinkSize PB_IOBUF_LEN
  rw [uint32_of_lt (n := 67108864 + curPos) (by omega), uint32_of_lt (by omega)]
  omega

theorem tryResizeBuffer_follows {todo : List Bytes} {w : World} (idletime : ℤ) (realloc : Bool)
    (h : Follows todo w) :
    Follows todo { w with conn := tryResizeBuffer w.conn idletime realloc } := by
  unfold tryResizeBuffer
  by_cases hlarge : PB_IOBUF_LEN < w.conn.rbufLen ∧
      (2 < w.conn.rbufLen / uint32 (w.conn.curPos + 1) ∨ 2 < idletime)
  swap
  · rw [if_neg hlarge]
    exact h
  rw [if_pos hlarge]
  dsimp only
  by_cases hless : shrinkSize w.conn.curPos < w.conn.rbufLen
  swap
  · rw [if_neg hless]
    exact h
  rw [if_pos hless]
  cases hs : w.conn.connStatus with
  | header =>
    simp only [Follows, hs, HeaderAt] at h ⊢
    obtain ⟨hlt, hbuf⟩ := h
    refine ⟨hlt, ?_⟩
    have hpos : w.conn.curPos < 2 ^ 29 := by unfold COMMAND_HEADER_LENGTH at hlt; omega
    have hsize := le_shrinkSize hpos
    cases hb : w.conn.rbuf with
    | some b =>
      rw [hb] at hbuf
      cases realloc with
      | true =>
        refine ⟨?_, ?_⟩
        · rw [Option.getD_some, List.length_take]
          exact le_min hsize.2 hbuf.1
        · rw [Option.getD_some, List.take_take, min_eq_left hsize.2]
          exact hbuf.2
      | false => exact .inr (shrinkSize_header hlt).le
    | none =>
      rw [hb] at hbuf
      obtain ⟨hcur, hin⟩ := hbuf.resolve_right (not_le.mpr hlarge.1)
      cases realloc with
      | true => exact ⟨by rw [hcur]; exact Nat.zero_le _, by rw [hcur]; simpa using hin⟩
      | false => exact .inl ⟨hcur, hin⟩
  | packet => simpa only [Follows, hs, PacketAt] using h
  | complete => simpa only [Follows, hs] using h
  | buildObuf => rw [Follows, hs] at h; exact h.elim
  | writeObuf => rw [Follows, hs] at h; exact h.elim

theorem run_inv_open {msgs : List Bytes} (hm : ∀ m ∈ msgs, Limited m) {ops : List Op}
    (hops : ∀ op ∈ ops, Open op) : Inv msgs (run step (start (msgs.flatMap encode)) ops) := by
  refine run_inv_of_forall (Inv msgs) ?_ ?_ hops
  · rintro w (e | ⟨idletime, realloc⟩) h hop
    · exact getRequest_inv hm hop h
    · obtain ⟨⟨todo, hsuf, hfollows⟩, hclose⟩ := h
      exact ⟨⟨todo, hsuf, tryResizeBuffer_follows idletime realloc hfollows⟩, hclose⟩
  · exact ⟨⟨msgs, List.suffix_refl _, Nat.zero_lt_succ _, Nat.zero_le _, by simp [start]⟩,
      by simp [start]⟩

/-! ### An empty message -/

/-- A call that finds all bytes it asks for. -/
def whole : Env := ⟨[.data (2 ^ 32), .data (2 ^ 32)], true, 0⟩

/-- Between two messages, with the buffer in place. -/
structure AtStart (todo : List Bytes) (w : World) : Prop where
  status : w.conn.connStatus = .header
  curPos : w.conn.curPos = 0
  rbuf : ∃ b, w.conn.rbuf = some b
  room : PB_IOBUF_LEN ≤ w.conn.rbufLen
  small : w.conn.rbufLen < kProtoMaxMessage
  input : w.input = todo.flatMap encode

theorem read_whole {w : World} {p rest b : Bytes} (hin : w.input = p ++ rest) (hp : p ≠ [])
    (hle : p.length ≤ 2 ^ 32) (hb : w.conn.rbuf = some b) :
    ∃ overflow, w.read p.length (.data (2 ^ 32)) = ({ w with
      conn := { w.conn with
        reads := w.conn.reads ++ [⟨w.conn.curPos, p.length, w.conn.rbufLen⟩]
        rbuf := some (store b w.conn.curPos p)
        overflow := overflow }
      input := rest }, .bytes p) := by
  have hpos := List.length_pos_iff.mpr hp
  have hans : answer w.input p.length (.data (2 ^ 32)) = .bytes p := by
    rw [answer, if_neg (by omega), if_neg (by simp [hin, hp]), min_eq_right (by omega), hin,
      List.take_left]
  have hdrop : w.input.drop p.length = rest := by rw [hin, List.drop_left]
  unfold World.read
  dsimp only
  rw [hans, hb]
  dsimp only
  rw [hdrop]
  exact ⟨_, rfl⟩

theorem grow_room {c : PbConn} {b : Bytes} (hb : c.rbuf = some b) (hroom : PB_IOBUF_LEN ≤ c.rbufLen)
    (hsmall : c.rbufLen < kProtoMaxMessage)
    (hlen : c.headerLen + COMMAND_HEADER_LENGTH < kProtoMaxMessage) :
    ∃ b' n, grow c true = ({ c with rbuf := some b', rbufLen := n }, true) ∧ PB_IOBUF_LEN ≤ n ∧
      n < kProtoMaxMessage := by
  have hsub : sub32 c.rbufLen COMMAND_HEADER_LENGTH = c.rbufLen - COMMAND_HEADER_LENGTH := by
    unfold PB_IOBUF_LEN at hroom
    unfold kProtoMaxMessage at hsmall
    unfold COMMAND_HEADER_LENGTH
    exact sub32_of_le (by omega) (by omega)
  have hmod : uint32 (c.headerLen + COMMAND_HEADER_LENGTH) =
      c.headerLen + COMMAND_HEADER_LENGTH := by
    unfold kProtoMaxMessage at hlen
    exact uint32_of_lt (by omega)
  unfold grow
  rw [hsub, hmod]
  by_cases hgrow : c.rbufLen - COMMAND_HEADER_LENGTH < c.headerLen
  · rw [if_pos hgrow]
    dsimp only
    rw [if_pos hlen, if_pos rfl]
    exact ⟨_, _, rfl, by omega, hlen⟩
  · rw [if_neg hgrow]
    exact ⟨b, c.rbufLen, by rw [← hb], hroom, hsmall⟩

/-- The header of the next message, read in one piece. -/
theorem turn_whole_header {m : Bytes} {rest : List Bytes} {w : World} (hm : Limited m)
    (h : AtStart (m :: rest) w) :
    ∃ c b, turn whole ⟨w, whole.recvs, [], none⟩ =
        ⟨{ w with conn := c, input := m ++ rest.flatMap encode }, [.data (2 ^ 32)], [], none⟩ ∧
      c.connStatus = .packet ∧ c.headerLen = m.length ∧ c.curPos = COMMAND_HEADER_LENGTH ∧
      c.remainPacketLen = m.length ∧ c.rbuf = some b ∧ c.rbufLen = w.conn.rbufLen := by
  obtain ⟨b, hb⟩ := h.rbuf
  have hlim := limited_lt hm
  have hin : w.input = htonl m.length ++ (m ++ rest.flatMap encode) := by
    rw [h.input, List.flatMap_cons, encode, List.append_assoc]
  obtain ⟨overflow, hread⟩ := read_whole hin (by simp [htonl]) (by rw [length_htonl]; norm_num) hb
  rw [length_htonl] at hread
  have hsub : sub32 COMMAND_HEADER_LENGTH w.conn.curPos = 4 := by
    rw [h.curPos, sub32_of_le (Nat.zero_le _) (by decide)]
    rfl
  have hn : ntohl (store b w.conn.curPos (htonl m.length)) = m.length := by
    rw [h.curPos, store, List.take_zero, List.nil_append, ntohl_htonl (by omega)]
  have hint : int32 (m.length : ℤ) = m.length := int32_of_lt (by omega) (by omega)
  have hmod : uint32 (w.conn.curPos + (htonl m.length).length) = COMMAND_HEADER_LENGTH := by
    rw [h.curPos, length_htonl, uint32_of_lt (by omega)]
    rfl
  have hnext : nextRecv whole.recvs = .data (2 ^ 32) := rfl
  rw [turn, h.status]
  dsimp only
  rw [headerTurn, hsub, hnext, hread]
  dsimp only
  rw [hmod, if_pos rfl, Option.getD_some, hn, hint]
  exact ⟨_, _, rfl, rfl, rfl, rfl, rfl, rfl, rfl⟩

theorem getRequest_whole {m : Bytes} {rest : List Bytes} {w : World} (hm : Limited m) (hne : m ≠ [])
    (h : AtStart (m :: rest) w) : AtStart rest (getRequest w whole) := by
  obtain ⟨c, b, hturn, hp, hlen, hcur, hrem, hb, hn⟩ := turn_whole_header hm h
  obtain ⟨b', n, hgrow, hroom, hsmall⟩ := grow_room hb (hn ▸ h.room) (hn ▸ h.small) (hlen ▸ hm)
  have hlim := limited_lt hm
  set c' : PbConn := { c with rbuf := some b', rbufLen := n } with hc'
  have hcount : sizeT c'.remainPacketLen = m.length := by
    show sizeT c.remainPacketLen = _
    rw [hrem, sizeT_of_nonneg (by omega) (by omega)]
    rfl
  obtain ⟨overflow, hread⟩ := read_whole
    (w := { w with conn := c', input := m ++ rest.flatMap encode }) rfl hne (by omega) rfl
  have hzero : int32 (c'.remainPacketLen - m.length) = 0 := by
    show int32 (c.remainPacketLen - m.length) = 0
    rw [hrem, sub_self, int32_of_lt (by omega) (by omega)]
  have hnext : nextRecv [Recv.data (2 ^ 32)] = .data (2 ^ 32) := rfl
  have hpacket : ∃ c'', c''.connStatus = .complete ∧ (∃ b, c''.rbuf = some b) ∧
      c''.rbufLen = n ∧ turn whole
        ⟨{ w with conn := c, input := m ++ rest.flatMap encode }, [.data (2 ^ 32)], [], none⟩ =
        ⟨{ w with conn := c'', input := rest.flatMap encode }, [], [], none⟩ := by
    rw [turn, hp]
    dsimp only
    rw [packetTurn, show whole.realloc = true from rfl, hgrow]
    dsimp only
    rw [hcount, hnext, hread]
    dsimp only
    rw [if_pos hzero]
    exact ⟨_, rfl, ⟨_, rfl⟩, rfl, rfl⟩
  obtain ⟨c'', hc'', ⟨b'', hb''⟩, hn'', hturn'⟩ := hpacket
  rw [getRequest, turns_succ rfl, hturn, turns_succ rfl, hturn', turns_succ rfl, turn, hc'']
  dsimp only
  rw [completeTurn, show whole.deal = 0 from rfl]
  exact ⟨rfl, rfl, ⟨b'', hb''⟩, hn'' ▸ hroom, hn'' ▸ hsmall, rfl⟩

theorem getRequest_empty {rest : List Bytes} {w : World} (h : AtStart ([] :: rest) w) :
    (some .readClose, []) ∈ (getRequest w whole).calls := by
  obtain ⟨c, b, hturn, hp, hlen, hcur, hrem, hb, hn⟩ := turn_whole_header (by decide) h
  obtain ⟨b', n, hgrow, -⟩ := grow_room hb (hn ▸ h.room) (hn ▸ h.small)
    (by rw [hlen]; exact (by decide : Limited []))
  have hcount : sizeT c.remainPacketLen = 0 := by
    rw [hrem, sizeT_of_nonneg (by simp) (by simp)]
    rfl
  have hread : ∀ w : World, ∃ w', w.read 0 (.data (2 ^ 32)) = (w', .eof) := by
    intro w
    exact ⟨_, rfl⟩
  obtain ⟨w', hread'⟩ := hread { w with
    conn := { c with rbuf := some b', rbufLen := n }, input := [] ++ rest.flatMap encode }
  have hpacket : ∃ x : Call, x.status = some .readClose ∧ x.dealt = [] ∧ turn whole
      ⟨{ w with conn := c, input := [] ++ rest.flatMap encode }, [.data (2 ^ 32)], [], none⟩ = x := by
    rw [turn, hp]
    dsimp only
    rw [packetTurn, show whole.realloc = true from rfl, hgrow]
    dsimp only
    rw [hcount, show nextRecv [Recv.data (2 ^ 32)] = .data (2 ^ 32) from rfl, hread']
    exact ⟨_, rfl, rfl, rfl⟩
  obtain ⟨x, hst, hd, hturn'⟩ := hpacket
  rw [getRequest, turns_succ rfl, hturn, turns_succ rfl, hturn', turns_of_isSome (by rw [hst]; rfl)]
  simp [hst, hd]

/-- The calls that read the messages before the first empty one. -/
theorem run_whole {msgs : List Bytes} {rest : List Bytes} (hm : ∀ m ∈ msgs, Limited m ∧ m ≠ []) :
    ∀ {w : World}, AtStart (msgs ++ rest) w →
      AtStart rest (run step w (List.replicate msgs.length (.getRequest whole))) := by
  induction msgs with
  | nil => exact fun h => h
  | cons m msgs ih =>
    intro w h
    obtain ⟨hlim, hne⟩ := hm m List.mem_cons_self
    exact ih (fun m' hmem => hm m' (List.mem_cons_of_mem _ hmem)) (getRequest_whole hlim hne h)

theorem start_atStart (msgs : List Bytes) : AtStart msgs (start (msgs.flatMap encode)) :=
  ⟨rfl, rfl, ⟨[], rfl⟩, le_rfl, by show PB_IOBUF_LEN < kProtoMaxMessage; decide, rfl⟩

/-- **A closed peer is reported only when the peer closed exactly if no message is empty.** The runs
are those in which no read has found the end of the stream; all else, how the stream is divided,
errors of `read`, missing memory, what `DealMessage` returns and when the buffer is shrunk, is
arbitrary. -/
theorem close_iff (msgs : List Bytes) (hm : ∀ m ∈ msgs, Limited m) :
    (∀ ops : List Op, (∀ op ∈ ops, Open op) →
      ∀ c ∈ (run step (start (msgs.flatMap encode)) ops).calls, c.1 ≠ some .readClose) ↔
    ∀ m ∈ msgs, m ≠ [] := by
  constructor
  · rintro hall m hmem rfl
    obtain ⟨pre, post, rfl, hnot⟩ := List.eq_append_cons_of_mem hmem
    have hlim : ∀ m ∈ pre, Limited m ∧ m ≠ [] :=
      fun m h => ⟨hm m (List.mem_append_left _ h), fun hnil => hnot (hnil ▸ h)⟩
    have hstart := run_whole hlim (start_atStart (pre ++ [] :: post))
    refine hall (List.replicate pre.length (.getRequest whole) ++ [.getRequest whole]) ?_
      (some .readClose, []) ?_ rfl
    · intro op hop
      have hop' : op = .getRequest whole := by
        rcases List.mem_append.mp hop with hop | hop
        · exact (List.mem_replicate.mp hop).2
        · exact List.mem_singleton.mp hop
      rw [hop']
      show Recv.closed ∉ [Recv.data _, Recv.data _]
      simp
    · rw [run_append]
      exact getRequest_empty hstart
  · intro hne ops hops c hc hst
    exact hne [] ((run_inv_open hm hops).close c hc hst) rfl

theorem close_iff_two :
    (∀ ops : List Op, (∀ op ∈ ops, Open op) →
      ∀ c ∈ (run step (start ([[7], [8, 9]].flatMap encode)) ops).calls, c.1 ≠ some .readClose) ↔
    ∀ m ∈ ([[7], [8, 9]] : List Bytes), m ≠ [] :=
  close_iff [[7], [8, 9]] (by decide)

/-- The empty message: its four bytes arrive, the peer goes on, and the call returns `kReadClose`. -/
theorem empty_message_closes :
    let ops : List Op := [.getRequest ⟨[.data 3, .eagain], true, 0⟩]
    (∀ op ∈ ops, Open op) ∧ Limited [] ∧
    (run step (start (encode [] ++ encode [7])) ops).calls = [(some .readClose, [])] := by
  decide +kernel

end Pink.Pb.Closing
