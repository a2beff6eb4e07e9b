import Pink.Pb.Client
import Pink.Pb.Replies

/-! # A client and a server of protobuf messages

A `PbCli` that sends requests and receives replies, the `PbConn` that serves it, and the bytes on
their way between the two. `DealMessage` writes some responses to each message. Every `send`, `read`
and `write` may be cut short, and the steps of the two sides come in any order.

As long as no `Send` and no `Recv` has failed in the middle of a frame, the messages dealt with are
the first of those sent, and the replies received are the first of the responses to them, in their
order (`session_exact`). -/

namespace Pink.Pb.Session

open Pink.Redis.Wire Pink.Lib.Runs Pink.Pb.Conn
open Pink.Pb.Frames (encode Fits found)
open Pink.Pb.Client (PbCli RawRecv Status recvLoop recvRaw recvPacket recv)
open Pink.Pb.Replies (Sender)

/-! ### Sending requests -/

/-- How a call of `send` ends: with `k` bytes taken, if there are so many, or -1. -/
inductive RawSent
  | sent (k : ℕ)
  | eintr
  | eagain
  | failed
  deriving DecidableEq, Repr

/-- The loop of `SendRaw`, with the calls that are left: the bytes that the kernel has taken. The
send timeout passes when there are no more calls. -/
def sendLoop : List RawSent → Bytes → Bytes → Bytes × Status
  | _, [], out => (out, .ok)
  | [], _ :: _, out => (out, .timeout)
  | .eintr :: rs, b :: left, out => sendLoop rs (b :: left) out
  | .eagain :: _, _ :: _, out => (out, .timeout)
  | .failed :: _, _ :: _, out => (out, .ioError)
  | .sent k :: rs, b :: left, out =>
    if k = 0 then (out, .ioError)
    else sendLoop rs ((b :: left).drop k) (out ++ (b :: left).take k)

/-- `PinkCli::SendRaw`. -/
def sendRaw (rs : List RawSent) (buf : Bytes) : Bytes × Status := sendLoop rs buf []

/-- What `PbCli::Send` writes for a message: its length and its serialization `m`. -/
def wbuf (m : Bytes) : Bytes := htonl (uint32 m.length) ++ m

/-- What has been taken is the first part of the buffer, and all of it after `OK`. -/
theorem sendLoop_prefix (rs : List RawSent) (left out : Bytes) :
    ∃ p, (sendLoop rs left out).1 = out ++ p ∧ p <+: left ∧
      ((sendLoop rs left out).2 = .ok → p = left) := by
  induction rs, left, out using sendLoop.induct with
  | case1 rs out => exact ⟨[], by simp [sendLoop], List.nil_prefix, fun _ => rfl⟩
  | case2 b left out => exact ⟨[], by simp [sendLoop], List.nil_prefix, by simp [sendLoop]⟩
  | case3 rs b left out ih =>
    rw [sendLoop]
    exact ih
  | case4 rs b left out => exact ⟨[], by simp [sendLoop], List.nil_prefix, by simp [sendLoop]⟩
  | case5 rs b left out => exact ⟨[], by simp [sendLoop], List.nil_prefix, by simp [sendLoop]⟩
  | case6 rs b left out =>
    exact ⟨[], by simp [sendLoop], List.nil_prefix, by simp [sendLoop]⟩
  | case7 k rs b left out hk ih =>
    obtain ⟨p, hout, hpre, hok⟩ := ih
    rw [sendLoop, if_neg hk]
    refine ⟨(b :: left).take k ++ p, by rw [hout, List.append_assoc], ?_, fun h => ?_⟩
    · conv_rhs => rw [← List.take_append_drop k (b :: left)]
      exact (List.prefix_append_right_inj _).mpr hpre
    · rw [hok h, List.take_append_drop]

theorem wbuf_eq {m : Bytes} (h : m.length < 2 ^ 32) : wbuf m = encode m := by
  unfold wbuf encode
  rw [uint32_of_lt h]

/-! ### The session -/

structure State where
  /-- The connection of the server, with the bytes of the client that it has not read. -/
  server : World := {}
  sender : Sender := {}
  /-- The client, with the bytes of the server that it has not read. -/
  client : PbCli := {}
  /-- The messages for which `Send` has returned `OK`. -/
  sent : List Bytes := []
  /-- What `Recv` has given to `ParseFromArray`. -/
  received : List Bytes := []
  /-- A `Send` or a `Recv` has failed in the middle of a frame. -/
  broken : Bool := false

inductive Op
  | send (m : Bytes) (rs : List RawSent)
  | recv (rs : List RawRecv)
  | getRequest (e : Env)
  | tryResizeBuffer (idletime : ℤ) (realloc : Bool)
  | sendReply (outs : List Sent)
  deriving DecidableEq, Repr

/-- The body that the last `RecvRaw` has read. -/
def body (cli : PbCli) : Bytes := cli.rbuf.take (cli.asks.getLastD 0)

section Steps
variable (respond : Bytes → List Bytes) (parse : Bytes → Bool)

def State.send (s : State) (m : Bytes) (rs : List RawSent) : State :=
  let (out, st) := sendRaw rs (wbuf m)
  { s with
    server := { s.server with input := s.server.input ++ out }
    sent := if st = .ok then s.sent ++ [m] else s.sent
    broken := decide (st ≠ .ok ∧ out ≠ []) }

def State.recv (s : State) (rs : List RawRecv) : State :=
  let (client, st) := Client.recv parse rs s.client
  if st = .ok ∨ st = .corruption then
    { s with client := client, received := s.received ++ [body client] }
  else { s with client := client, broken := decide (client.input ≠ s.client.input) }

/-- `GetRequest`, in which `DealMessage` calls `WriteResp` for each response. -/
def State.getRequest (s : State) (e : Env) : State :=
  let server := Conn.getRequest s.server e
  let dealt := (server.dealt.drop s.server.dealt.length).map Prod.snd
  { s with server := server, sender := (dealt.flatMap respond).foldl Sender.writeResp s.sender }

/-- `SendReply`; what it writes is on its way to the client. -/
def State.sendReply (s : State) (outs : List Sent) : State :=
  let sender := (s.sender.sendReply outs).1
  let out := sender.written.drop s.sender.written.length
  { s with sender := sender, client := { s.client with input := s.client.input ++ out } }

/-- One step. A client whose call has failed in the middle of a frame makes no further calls. -/
def step (s : State) : Op → State
  | .send m rs => if s.broken then s else s.send m rs
  | .recv rs => if s.broken then s else s.recv parse rs
  | .getRequest e => s.getRequest respond e
  | .tryResizeBuffer idletime realloc =>
    { s with server := { s.server with conn := tryResizeBuffer s.server.conn idletime realloc } }
  | .sendReply outs => s.sendReply outs

end Steps

/-- Messages fit in a frame, the peer goes on, there is memory for the buffer, and `DealMessage`
returns 0. -/
def Op.Plain : Op → Prop
  | .send m _ => Fits m
  | .recv _ | .sendReply _ => True
  | .getRequest e => Frames.Op.Plain (.getRequest e)
  | .tryResizeBuffer _ realloc => realloc = true

instance : DecidablePred Op.Plain := fun op => by cases op <;> unfold Op.Plain <;> infer_instance

/-! ### What a `Recv` takes -/

theorem recvLoop_input (rs : List RawRecv) (nleft pos : ℕ) (cli : PbCli) :
    (recvLoop rs nleft pos cli).2.2.1 ≠ .corruption ∧
      ((recvLoop rs nleft pos cli).2.2.1 = .ok →
        (recvLoop rs nleft pos cli).1.input = cli.input.drop nleft ∧
        (recvLoop rs nleft pos cli).2.2.2 = pos + nleft) := by
  induction rs, nleft, pos, cli using Pink.Pb.Client.recvLoop.induct with
  | case1 rs pos cli => simp [recvLoop]
  | case2 n pos cli => simp [recvLoop]
  | case3 rs n pos cli ih =>
    rw [recvLoop]
    exact ih
  | case4 rs n pos cli => simp [recvLoop]
  | case5 rs n pos cli => simp [recvLoop]
  | case6 rs n pos cli => simp [recvLoop]
  | case7 k rs n pos cli h => simp [recvLoop, h]
  | case8 k rs n pos cli h bs ih =>
    rw [recvLoop, if_neg h]
    obtain ⟨hne, hok⟩ := ih
    have hlen : bs.length ≤ n + 1 := by
      simp only [bs, List.length_take]
      omega
    refine ⟨hne, fun hst => ?_⟩
    obtain ⟨h1, h2⟩ := hok hst
    refine ⟨h1.trans ?_, by rw [h2]; omega⟩
    rw [List.drop_drop, Nat.add_sub_cancel' hlen]

/-- With all the bytes there and enough reads, the loop ends with `OK`. -/
theorem recvLoop_data (rs : List RawRecv) (nleft pos : ℕ) (cli : PbCli)
    (hrs : ∀ r ∈ rs, ∃ k, r = .data k) (hlen : nleft ≤ rs.length) (hin : nleft ≤ cli.input.length) :
    (recvLoop rs nleft pos cli).2.2.1 = .ok ∧
      (∀ r ∈ (recvLoop rs nleft pos cli).2.1, ∃ k, r = .data k) ∧
      rs.length ≤ (recvLoop rs nleft pos cli).2.1.length + nleft := by
  induction rs, nleft, pos, cli using Pink.Pb.Client.recvLoop.induct with
  | case1 rs pos cli =>
    exact ⟨by simp [recvLoop], by simpa [recvLoop] using hrs, by simp [recvLoop]⟩
  | case2 n pos cli => exact absurd hlen (by simp)
  | case3 rs n pos cli ih => exact absurd (hrs _ List.mem_cons_self) (by simp)
  | case4 rs n pos cli => exact absurd (hrs _ List.mem_cons_self) (by simp)
  | case5 rs n pos cli => exact absurd (hrs _ List.mem_cons_self) (by simp)
  | case6 rs n pos cli => exact absurd (hrs _ List.mem_cons_self) (by simp)
  | case7 k rs n pos cli h =>
    rw [h, List.length_nil] at hin
    omega
  | case8 k rs n pos cli h bs ih =>
    have hpos : 0 < cli.input.length := List.length_pos_iff.mpr h
    have hbs : bs.length = min (min (k + 1) (n + 1)) cli.input.length := by
      simp only [bs, List.length_take]
    rw [List.length_cons] at hlen
    rw [recvLoop, if_neg h]
    obtain ⟨h1, h2, h3⟩ := ih (fun r hr => hrs r (List.mem_cons_of_mem _ hr)) (by omega)
      (by rw [List.length_drop]; omega)
    have hstep : n + 1 - bs.length + 1 ≤ n + 1 := by omega
    exact ⟨h1, h2, (Nat.succ_le_succ h3).trans (Nat.add_le_add_left hstep _)⟩

/-- **A call of `RecvRaw`**: after `OK` it has taken as many bytes as it was asked for, and it
returns `OK` if they are there and there are enough reads. -/
theorem recvRaw_spec (rs : List RawRecv) (count : ℕ) (cli : PbCli) :
    ∃ cli' rs' st n, recvRaw rs count cli = (cli', rs', st, n) ∧ st ≠ .corruption ∧
      cli'.asks = cli.asks ++ [count] ∧
      (st = .ok → n = count ∧ count ≤ cli.input.length ∧ cli'.input = cli.input.drop count ∧
        cli'.rbuf.take count = cli.input.take count) ∧
      ((∀ r ∈ rs, ∃ k, r = .data k) → count ≤ rs.length → count ≤ cli.input.length →
        st = .ok ∧ (∀ r ∈ rs', ∃ k, r = .data k) ∧ rs.length ≤ rs'.length + count) := by
  obtain ⟨hne, hok⟩ := recvLoop_input rs count 0 { cli with asks := cli.asks ++ [count] }
  have hbytes := Client.recvLoop_ok rs count 0 { cli with asks := cli.asks ++ [count] }
    (Nat.zero_le _)
  refine ⟨_, _, _, _, rfl, hne, Client.recvLoop_asks _ _ _ _, fun hst => ?_,
    recvLoop_data rs count 0 { cli with asks := cli.asks ++ [count] }⟩
  obtain ⟨hin, hn⟩ := hok hst
  obtain ⟨hle, htake⟩ := hbytes hst
  rw [Nat.zero_add, List.take_zero, List.nil_append] at htake
  exact ⟨hn.trans (Nat.zero_add count), hle, hin, htake⟩

theorem recv_eq (parse : Bytes → Bool) {rs rs₁ : List RawRecv} {cli cli₁ : PbCli} {st : Status}
    {n : ℕ} (h : recvRaw rs COMMAND_HEADER_LENGTH cli = (cli₁, rs₁, st, n)) :
    recv parse rs cli =
      if st = .ok then recvPacket parse rs₁ (ntohl cli₁.rbuf) cli₁ else (cli₁, st) := by
  unfold recv
  rw [h]
  cases st <;> rfl

theorem recvPacket_eq (parse : Bytes → Bool) {rs rs₁ : List RawRecv} {cli cli₁ : PbCli}
    {st : Status} {n len : ℕ} (h : recvRaw rs len cli = (cli₁, rs₁, st, n)) :
    recvPacket parse rs len cli =
      (cli₁, if st = .ok then if parse (cli₁.rbuf.take n) then .ok else .corruption else st) := by
  unfold recvPacket
  rw [h]
  cases st <;> rfl

/-- The header has been read: it is that of the first frame. -/
theorem header_of_prefix {ms : List Bytes} {input rbuf : Bytes}
    (hm : ∀ m ∈ ms, m.length < 2 ^ 32) (hin : input <+: ms.flatMap encode)
    (h4 : COMMAND_HEADER_LENGTH ≤ input.length)
    (hbuf : rbuf.take COMMAND_HEADER_LENGTH = input.take COMMAND_HEADER_LENGTH) :
    ∃ m rest, ms = m :: rest ∧ ntohl rbuf = m.length ∧
      input.drop COMMAND_HEADER_LENGTH <+: m ++ rest.flatMap encode ∧
      input = htonl m.length ++ input.drop COMMAND_HEADER_LENGTH := by
  obtain ⟨tail, htail⟩ := hin
  cases ms with
  | nil =>
    have := congrArg List.length htail
    rw [List.length_append, List.flatMap_nil, List.length_nil] at this
    unfold COMMAND_HEADER_LENGTH at h4
    omega
  | cons m rest =>
    rw [← List.take_append_drop COMMAND_HEADER_LENGTH input, List.flatMap_cons, encode,
      List.append_assoc, List.append_assoc] at htail
    have hlen : (input.take COMMAND_HEADER_LENGTH).length = (htonl m.length).length := by
      rw [List.length_take, length_htonl]
      exact min_eq_left h4
    obtain ⟨hhead, hrest⟩ := List.append_inj htail hlen
    refine ⟨m, rest, rfl, ?_, ⟨tail, hrest⟩, ?_⟩
    · rw [← List.take_append_drop COMMAND_HEADER_LENGTH rbuf, hbuf, hhead,
        ntohl_htonl (hm m List.mem_cons_self)]
    · rw [← hhead, List.take_append_drop]

/-- **A `Recv` that reads a whole reply takes exactly the next frame.** -/
theorem recv_frame (parse : Bytes → Bool) (rs : List RawRecv) {cli : PbCli} {ms : List Bytes}
    (hm : ∀ m ∈ ms, m.length < 2 ^ 32) (hin : cli.input <+: ms.flatMap encode)
    (hst : (recv parse rs cli).2 = .ok ∨ (recv parse rs cli).2 = .corruption) :
    ∃ m rest, ms = m :: rest ∧ cli.input = encode m ++ (recv parse rs cli).1.input ∧
      body (recv parse rs cli).1 = m := by
  obtain ⟨cli₁, rs₁, st₁, n₁, h₁, hne₁, -, hok₁, -⟩ := recvRaw_spec rs COMMAND_HEADER_LENGTH cli
  rw [recv_eq parse h₁] at hst ⊢
  by_cases hs₁ : st₁ = .ok
  swap
  · rw [if_neg hs₁] at hst
    exact absurd hst (not_or.mpr ⟨hs₁, hne₁⟩)
  rw [if_pos hs₁] at hst ⊢
  obtain ⟨-, h4, hdrop, htake⟩ := hok₁ hs₁
  obtain ⟨m, rest, rfl, hlen, hpre, hinput⟩ := header_of_prefix hm hin h4 htake
  rw [hlen] at hst ⊢
  obtain ⟨cli₂, rs₂, st₂, n₂, h₂, hne₂, hasks, hok₂, -⟩ := recvRaw_spec rs₁ m.length cli₁
  rw [recvPacket_eq parse h₂] at hst ⊢
  by_cases hs₂ : st₂ = .ok
  swap
  · rw [if_neg hs₂] at hst
    exact absurd hst (not_or.mpr ⟨hs₂, hne₂⟩)
  obtain ⟨-, hle, hdrop₂, htake₂⟩ := hok₂ hs₂
  rw [hdrop] at hle hdrop₂ htake₂
  have hbody : (cli.input.drop COMMAND_HEADER_LENGTH).take m.length = m := by
    obtain ⟨tail, htail⟩ := hpre
    have := congrArg (List.take m.length) htail
    rwa [List.take_append_of_le_length hle, List.take_left] at this
  refine ⟨m, rest, rfl, ?_, ?_⟩
  · conv_lhs => rw [hinput, ← List.take_append_drop m.length (cli.input.drop _), hbody]
    rw [hdrop₂, encode, List.append_assoc]
  · unfold body
    rw [hasks, List.getLastD_concat, htake₂, hbody]

/-- **A reply that is all there is received.** -/
theorem recv_of_frame (parse : Bytes → Bool) {rs : List RawRecv} {cli : PbCli} {m : Bytes}
    (hm : m.length < 2 ^ 32) (hin : encode m <+: cli.input) (hrs : ∀ r ∈ rs, ∃ k, r = .data k)
    (hlen : (encode m).length ≤ rs.length) :
    (recv parse rs cli).2 = .ok ∨ (recv parse rs cli).2 = .corruption := by
  have hin' := hin.length_le
  rw [Frames.length_encode] at hin' hlen
  obtain ⟨cli₁, rs₁, st₁, n₁, h₁, -, -, hok₁, hdata₁⟩ := recvRaw_spec rs COMMAND_HEADER_LENGTH cli
  obtain ⟨hs₁, hrs₁, hlen₁⟩ := hdata₁ hrs (by omega) (by omega)
  obtain ⟨-, -, hdrop, htake⟩ := hok₁ hs₁
  have hheader : ntohl cli₁.rbuf = m.length := by
    obtain ⟨tail, htail⟩ := hin
    rw [← List.take_append_drop COMMAND_HEADER_LENGTH cli₁.rbuf, htake, ← htail, encode,
      List.append_assoc, show COMMAND_HEADER_LENGTH = (htonl m.length).length from rfl,
      List.take_left, ntohl_htonl hm]
  obtain ⟨cli₂, rs₂, st₂, n₂, h₂, -, -, -, hdata₂⟩ := recvRaw_spec rs₁ m.length cli₁
  obtain ⟨hs₂, -⟩ := hdata₂ hrs₁ (by omega) (by rw [hdrop, List.length_drop]; omega)
  rw [recv_eq parse h₁, if_pos hs₁, hheader, recvPacket_eq parse h₂, if_pos hs₂]
  dsimp only
  split_ifs
  · exact Or.inl rfl
  · exact Or.inr rfl

/-! ### What the server deals with -/

theorem headerTurn_calls (x : Call) : (headerTurn x).w.calls = x.w.calls := by
  have h := read_calls x.w (sub32 COMMAND_HEADER_LENGTH x.w.conn.curPos) (nextRecv x.recvs)
  unfold headerTurn
  generalize x.w.read (sub32 COMMAND_HEADER_LENGTH x.w.conn.curPos) (nextRecv x.recvs) = r at h
  obtain ⟨w, g⟩ := r
  cases g with
  | bytes bs =>
    dsimp only
    split_ifs
    · exact h
    · exact h
  | eagain => exact h
  | eof => exact h
  | error => exact h

theorem packetTurn_calls (x : Call) (realloc : Bool) :
    (packetTurn x realloc).w.calls = x.w.calls := by
  unfold packetTurn
  rcases grow x.w.conn realloc with ⟨c, room⟩
  cases room with
  | false => rfl
  | true =>
    have h := read_calls { x.w with conn := c } (sizeT c.remainPacketLen) (nextRecv x.recvs)
    dsimp only
    generalize World.read { x.w with conn := c } (sizeT c.remainPacketLen) (nextRecv x.recvs) = r
      at h
    obtain ⟨w, g⟩ := r
    cases g with
    | bytes bs =>
      dsimp only
      split_ifs
      · exact h
      · exact h
    | eagain => exact h
    | eof => exact h
    | error => exact h

theorem turns_calls (e : Env) (fuel : ℕ) : ∀ x : Call, (turns e fuel x).w.calls = x.w.calls := by
  have hturn : ∀ x : Call, (turn e x).w.calls = x.w.calls := by
    intro x
    unfold turn
    split
    · exact headerTurn_calls x
    · exact packetTurn_calls x e.realloc
    · unfold completeTurn
      dsimp only
      split_ifs
      · rfl
      · rfl
    · rfl
    · rfl
  induction fuel with
  | zero => exact fun _ => rfl
  | succ fuel ih =>
    intro x
    rw [turns]
    split_ifs
    · rfl
    · rw [ih, hturn]

/-- A call only adds to what has been dealt with. -/
theorem getRequest_dealt (w : World) (e : Env) : w.dealt <+: (getRequest w e).dealt := by
  unfold getRequest
  dsimp only
  rw [Frames.dealt_append]
  have hcalls : (turns e 3 { w := w, recvs := e.recvs }).w.dealt = w.dealt := by
    unfold World.dealt
    rw [turns_calls]
  rw [hcalls]
  exact List.prefix_append _ _

/-! ### What the server writes -/

theorem writeItem_written (item : Bytes) (outs : List Sent) (x : Sending) :
    x.written <+: (writeItem item outs x).1.written := by
  induction outs generalizing x with
  | nil => exact List.prefix_rfl
  | cons out outs ih =>
    cases out with
    | wrote k =>
      rw [writeItem]
      dsimp only
      split_ifs
      · exact List.prefix_rfl
      · exact List.prefix_rfl
      · refine List.IsPrefix.trans ?_ (ih _)
        unfold Sending.advance
        dsimp only
        split_ifs
        · exact List.prefix_append _ _
        · exact List.prefix_append _ _
    | eagain =>
      rw [writeItem]
      split_ifs
      · exact List.prefix_rfl
      · exact List.prefix_rfl
    | failed =>
      rw [writeItem]
      split_ifs
      · exact List.prefix_rfl
      · exact List.prefix_rfl

theorem sendLoop_written (fuel : ℕ) (buf : WriteBuf) (written : Bytes) (outs : List Sent) :
    written <+: (Conn.sendLoop fuel buf written outs).2.1 := by
  induction fuel generalizing buf written outs with
  | zero => exact List.prefix_rfl
  | succ fuel ih =>
    rw [Conn.sendLoop]
    split
    · exact List.prefix_rfl
    case _ item rest _ =>
      have hitem := writeItem_written item outs ⟨buf, item.length, written⟩
      generalize writeItem item outs ⟨buf, item.length, written⟩ = r at hitem
      obtain ⟨x, stop, outs'⟩ := r
      dsimp only at hitem
      split
      case _ he => cases he; exact hitem
      case _ he => cases he; exact hitem
      case _ he =>
        cases he
        split_ifs
        · exact hitem.trans (ih _ _ _)
        · exact hitem

theorem sendReply_written (s : Sender) (outs : List Sent) :
    s.written <+: (s.sendReply outs).1.written := sendLoop_written _ _ _ _

theorem foldl_writeResp (rs : List Bytes) : ∀ s : Sender,
    (rs.foldl Sender.writeResp s).accepted = s.accepted ++ rs ∧
      (rs.foldl Sender.writeResp s).written = s.written ∧
      ((∀ r ∈ rs, r ≠ []) → s.Inv → (rs.foldl Sender.writeResp s).Inv) := by
  induction rs with
  | nil => exact fun s => ⟨(List.append_nil _).symm, rfl, fun _ h => h⟩
  | cons r rs ih =>
    intro s
    obtain ⟨h1, h2, h3⟩ := ih (s.writeResp r)
    rw [List.foldl_cons]
    refine ⟨by rw [h1, Sender.writeResp, List.append_assoc]; rfl, h2, fun hr hs => ?_⟩
    exact h3 (fun r' hr' => hr r' (List.mem_cons_of_mem _ hr'))
      (Sender.writeResp_inv (hr r List.mem_cons_self) hs)

/-! ### The invariant -/

/-- The messages dealt with are the first of those sent, and their responses are the accepted ones;
of these the first have been received, and the rest is on its way. -/
structure Inv (respond : Bytes → List Bytes) (s : State) : Prop where
  frames : ∃ done todo b, Frames.Inv s.sent s.server done todo b ∧
    s.sender.accepted = done.flatMap respond
  sender : s.sender.Inv
  stream : s.sender.written = s.received.flatMap encode ++ s.client.input
  received : s.received <+: s.sender.accepted
  fits : ∀ m ∈ s.sent, Fits m

section Invariant
variable {respond : Bytes → List Bytes} {parse : Bytes → Bool} {s : State}
  (hr : ∀ m, ∀ r ∈ respond m, Fits r)
include hr

theorem Inv.accepted_lt (h : Inv respond s) : ∀ m ∈ s.sender.accepted, m.length < 2 ^ 32 := by
  obtain ⟨done, -, -, -, hacc⟩ := h.frames
  intro m hm
  rw [hacc] at hm
  obtain ⟨q, -, hq⟩ := List.mem_flatMap.mp hm
  have := Frames.fits_lt (hr q m hq)
  omega

/-- What is on its way to the client is the first part of the replies not yet received. -/
theorem Inv.client_prefix (h : Inv respond s) {ms : List Bytes}
    (hms : s.sender.accepted = s.received ++ ms) : s.client.input <+: ms.flatMap encode := by
  obtain ⟨-, sent, hf⟩ := h.sender
  have hpre := hf.prefix_stream
  rw [Replies.flatten_items (h.accepted_lt hr), h.stream, hms, List.flatMap_append] at hpre
  exact (List.prefix_append_right_inj _).mp hpre

omit hr in
theorem Inv.send (h : Inv respond s) {m : Bytes} (hm : Fits m) (rs : List RawSent)
    (hb : (s.send m rs).broken = false) : Inv respond (s.send m rs) := by
  have hlt : m.length < 2 ^ 32 := by
    have := Frames.fits_lt hm
    omega
  obtain ⟨p, hout, -, hok⟩ := sendLoop_prefix rs (wbuf m) []
  unfold State.send sendRaw at hb ⊢
  generalize sendLoop rs (wbuf m) [] = r at hout hok hb
  obtain ⟨out, st⟩ := r
  dsimp only at hout hok hb ⊢
  rw [List.nil_append] at hout
  subst hout
  obtain ⟨done, todo, b, hf, hacc⟩ := h.frames
  by_cases hst : st = .ok
  · rw [if_pos hst, hok hst, wbuf_eq hlt]
    refine ⟨⟨done, todo ++ [m], b, ⟨?_, hf.dealt, ?_, ?_, hf.calls⟩, hacc⟩, h.sender, h.stream,
      h.received, ?_⟩
    · rw [hf.msgs, List.append_assoc]
    · refine ⟨hf.holds.rbuf, hf.holds.curPos, ?_, hf.holds.room, hf.holds.small, hf.holds.inside⟩
      dsimp only
      rw [← List.append_assoc, hf.holds.bytes]
      simp
    · rcases hf.at_ with hat | ⟨h1, m', rest, rfl, h2⟩
      · exact Or.inl hat
      · exact Or.inr ⟨h1, m', rest ++ [m], rfl, h2⟩
    · intro m' hm'
      rcases List.mem_append.mp hm' with hm' | hm'
      · exact h.fits m' hm'
      · rw [List.mem_singleton.mp hm']
        exact hm
  · -- nothing of the frame has been taken
    have hp : out = [] := by
      by_contra hne
      rw [decide_eq_true ⟨hst, hne⟩] at hb
      cases hb
    subst hp
    rw [if_neg hst, List.append_nil]
    exact ⟨⟨done, todo, b, hf, hacc⟩, h.sender, h.stream, h.received, h.fits⟩

theorem Inv.recv (h : Inv respond s) (rs : List RawRecv)
    (hb : (s.recv parse rs).broken = false) : Inv respond (s.recv parse rs) := by
  obtain ⟨ms, hms⟩ := h.received
  have hpre := h.client_prefix hr hms.symm
  have hlt : ∀ m ∈ ms, m.length < 2 ^ 32 := fun m hm => h.accepted_lt hr m (by
    rw [← hms]
    exact List.mem_append_right _ hm)
  have hframe := recv_frame parse rs hlt hpre
  unfold State.recv at hb ⊢
  generalize Client.recv parse rs s.client = r at hframe hb
  obtain ⟨client, st⟩ := r
  dsimp only at hframe hb ⊢
  by_cases hst : st = .ok ∨ st = .corruption
  · rw [if_pos hst]
    obtain ⟨m, rest, rfl, hin, hbody⟩ := hframe hst
    refine ⟨h.frames, h.sender, ?_, ?_, h.fits⟩
    · dsimp only
      rw [h.stream, hin, hbody]
      simp
    · dsimp only
      rw [hbody, ← hms]
      exact ⟨rest, by simp⟩
  · rw [if_neg hst] at hb ⊢
    have hsame : client.input = s.client.input := by simpa using hb
    refine ⟨h.frames, h.sender, ?_, h.received, h.fits⟩
    dsimp only
    rw [hsame]
    exact h.stream

theorem Inv.getRequest (h : Inv respond s) {e : Env} (he : Frames.Op.Plain (.getRequest e)) :
    Inv respond (s.getRequest respond e) := by
  obtain ⟨done, todo, b, hf, hacc⟩ := h.frames
  obtain ⟨⟨done', todo', b', hf'⟩, -⟩ := Frames.getRequest_inv h.fits he hf
  -- the messages dealt with in this call
  have hnew : done' = done ++
      ((Conn.getRequest s.server e).dealt.drop s.server.dealt.length).map Prod.snd := by
    obtain ⟨ds, hds⟩ := getRequest_dealt s.server e
    rw [← hds, List.drop_left]
    have hmap := congrArg (List.map Prod.snd) hf'.dealt
    rw [← hds, hf.dealt] at hmap
    have hfound : ∀ l : List Bytes, (l.map found).map Prod.snd = l := fun l => by
      simp [found, Function.comp_def]
    rw [List.map_append, hfound, hfound] at hmap
    exact hmap.symm
  unfold State.getRequest
  dsimp only
  set new := ((Conn.getRequest s.server e).dealt.drop s.server.dealt.length).map Prod.snd
  obtain ⟨h1, h2, h3⟩ := foldl_writeResp (new.flatMap respond) s.sender
  have hne : ∀ r ∈ new.flatMap respond, r ≠ [] := by
    rintro r hrmem rfl
    obtain ⟨m, -, hm⟩ := List.mem_flatMap.mp hrmem
    exact absurd (hr m [] hm).1 (by simp)
  refine ⟨⟨done', todo', b', hf', ?_⟩, h3 hne h.sender, h2.trans h.stream, ?_, h.fits⟩
  · rw [h1, hacc, hnew, List.flatMap_append]
  · dsimp only
    rw [h1]
    exact h.received.trans (List.prefix_append _ _)

omit hr in
theorem Inv.sendReply (h : Inv respond s) (outs : List Sent) : Inv respond (s.sendReply outs) := by
  obtain ⟨hs, hacc, -⟩ := Sender.sendReply_inv h.sender outs
  obtain ⟨out, hout⟩ := sendReply_written s.sender outs
  unfold State.sendReply
  dsimp only
  refine ⟨?_, hs, ?_, ?_, h.fits⟩
  · dsimp only
    rw [hacc]
    exact h.frames
  · dsimp only
    rw [← hout, List.drop_left, h.stream, List.append_assoc]
  · dsimp only
    rw [hacc]
    exact h.received

/-- **Every step keeps the invariant**, unless a call fails in the middle of a frame. -/
theorem Inv.step (h : Inv respond s) (hs : s.broken = false) {op : Op} (hop : op.Plain)
    (hb : (Session.step respond parse s op).broken = false) :
    Inv respond (Session.step respond parse s op) := by
  cases op with
  | send m rs =>
    unfold Session.step at hb ⊢
    dsimp only at hb ⊢
    rw [if_neg (by simp [hs])] at hb ⊢
    exact h.send hop rs hb
  | recv rs =>
    unfold Session.step at hb ⊢
    dsimp only at hb ⊢
    rw [if_neg (by simp [hs])] at hb ⊢
    exact h.recv hr rs hb
  | getRequest e => exact h.getRequest hr hop
  | tryResizeBuffer idletime realloc =>
    obtain rfl : realloc = true := hop
    obtain ⟨done, todo, b, hf, hacc⟩ := h.frames
    obtain ⟨b', hf'⟩ := Frames.tryResizeBuffer_inv h.fits idletime hf
    exact ⟨⟨done, todo, b', hf', hacc⟩, h.sender, h.stream, h.received, h.fits⟩
  | sendReply outs => exact h.sendReply outs

omit hr in
/-- A client whose call has failed in the middle of a frame does not go on. -/
theorem step_broken (hs : s.broken = true) (op : Op) :
    (Session.step respond parse s op).broken = true := by
  cases op with
  | send m rs => unfold Session.step; dsimp only; rw [if_pos hs]; exact hs
  | recv rs => unfold Session.step; dsimp only; rw [if_pos hs]; exact hs
  | getRequest e => exact hs
  | tryResizeBuffer idletime realloc => exact hs
  | sendReply outs => exact hs

end Invariant

/-- What holds of a session in which no call has failed in the middle of a frame. -/
structure Exact (respond : Bytes → List Bytes) (parse : Bytes → Bool) (s : State) : Prop where
  /-- The messages dealt with are the first of those sent, and the replies received the first of the
  responses to these. -/
  inOrder : ∃ done, done <+: s.sent ∧ s.server.dealt = done.map found ∧
    s.received <+: done.flatMap respond
  /-- When the server has read everything, it has dealt with all messages. -/
  served : s.server.input = [] → s.server.dealt = s.sent.map found
  /-- When nothing is on its way, all replies have been received. -/
  complete : s.server.input = [] → s.sender.buf.queue = [] → s.client.input = [] →
    s.received = s.sent.flatMap respond
  /-- A `Recv` that finds the next reply receives it. -/
  next : ∀ m rest, s.sender.accepted = s.received ++ m :: rest → encode m <+: s.client.input →
    ∀ rs, (∀ r ∈ rs, ∃ k, r = .data k) → (encode m).length ≤ rs.length →
      (step respond parse s (.recv rs)).received = s.received ++ [m]

theorem inv_start (respond : Bytes → List Bytes) : Inv respond {} := by
  have hnil : ∀ m ∈ ([] : List Bytes), Fits m := by simp
  have hops : ∀ op ∈ ([] : List Conn.Op), Frames.Op.Plain op := by simp
  obtain ⟨done, todo, b, hf⟩ := Frames.run_frames hnil hops
  have hdone : done = [] := (List.append_eq_nil_iff.mp hf.msgs.symm).1
  subst hdone
  exact ⟨⟨[], todo, b, hf, rfl⟩, ⟨by simp, [], rfl, rfl, fun _ => rfl, by simp⟩, rfl,
    List.nil_prefix, by simp⟩

theorem exact_of_inv {respond : Bytes → List Bytes} (parse : Bytes → Bool)
    (hr : ∀ m, ∀ r ∈ respond m, Fits r) {s : State} (hs : s.broken = false) (h : Inv respond s) :
    Exact respond parse s := by
  obtain ⟨done, todo, b, hf, hacc⟩ := h.frames
  have hserved : s.server.input = [] → done = s.sent := by
    intro hin
    have hbytes := congrArg List.length hf.holds.bytes
    have hlt := hf.curPos_lt
    rw [hin, List.append_nil, List.length_take, min_eq_left hf.holds.curPos] at hbytes
    cases todo with
    | nil => rw [hf.msgs, List.append_nil]
    | cons m rest =>
      have hm := hlt m rfl
      rw [List.flatMap_cons, List.length_append] at hbytes
      omega
  refine ⟨⟨done, ⟨todo, hf.msgs.symm⟩, hf.dealt, hacc ▸ h.received⟩, fun hin => ?_,
    fun hin hq hcl => ?_, fun m rest hms hin rs hrs hlen => ?_⟩
  · rw [hf.dealt, hserved hin]
  · -- all that was accepted has been written, and all that was written has been received
    obtain ⟨-, sent, hfifo⟩ := h.sender
    have hall := hfifo.all hq
    rw [Replies.flatten_items (h.accepted_lt hr), h.stream, hcl, List.append_nil] at hall
    obtain ⟨ms, hms⟩ := h.received
    rw [← hms, List.flatMap_append] at hall
    have hnil : ms.flatMap encode = [] := List.self_eq_append_right.mp hall
    have hms' : ms = [] := by
      cases ms with
      | nil => rfl
      | cons m rest =>
        have := congrArg List.length hnil
        rw [List.flatMap_cons, List.length_append, Frames.length_encode, List.length_nil] at this
        unfold COMMAND_HEADER_LENGTH at this
        omega
    rw [hms', List.append_nil] at hms
    rw [hms, hacc, hserved hin]
  · have hm : m.length < 2 ^ 32 := h.accepted_lt hr m (by rw [hms]; simp)
    have hst := recv_of_frame parse hm hin hrs hlen
    have hlt : ∀ q ∈ m :: rest, q.length < 2 ^ 32 := fun q hq => h.accepted_lt hr q (by
      rw [hms]
      exact List.mem_append_right _ hq)
    obtain ⟨m', rest', he, -, hbody⟩ := recv_frame parse rs hlt (h.client_prefix hr hms) hst
    obtain ⟨rfl, rfl⟩ := List.cons.inj he
    unfold step
    dsimp only
    rw [if_neg (by simp [hs]), State.recv]
    dsimp only
    rw [if_pos hst, hbody]

/-- **Requests and replies are delivered once and in order.** However the kernel cuts the bytes, and
in whatever order the two sides take their steps, as long as no call of the client has failed in the
middle of a frame. -/
theorem session_exact (respond : Bytes → List Bytes) (parse : Bytes → Bool)
    (hr : ∀ m, ∀ r ∈ respond m, Fits r) (ops : List Op) (hops : ∀ op ∈ ops, op.Plain)
    (hb : (run (step respond parse) {} ops).broken = false) :
    Exact respond parse (run (step respond parse) {} ops) := by
  refine exact_of_inv parse hr hb ?_
  revert hb
  refine run_inv_of_forall (fun s : State => s.broken = false → Inv respond s)
    (fun s op h hop hb => ?_) (fun _ => inv_start respond) hops
  by_cases hs : s.broken = false
  · exact (h hs).step hr hs hop hb
  · have hs' : s.broken = true := by simpa using hs
    rw [step_broken hs'] at hb
    cases hb

/-- A server that answers with the first bytes of the request. -/
def echo (m : Bytes) : List Bytes := [m.take 8 ++ [0]]

theorem fits_echo (m : Bytes) : ∀ r ∈ echo m, Fits r := by
  intro r hr
  rw [List.mem_singleton.mp hr]
  unfold Fits COMMAND_HEADER_LENGTH kProtoMaxMessage
  rw [List.length_append, List.length_take, List.length_singleton]
  omega

/-- Two requests and their replies, in pieces. -/
theorem session_exact_two :
    Exact echo (fun _ => true) (run (step echo fun _ => true) {}
      [.send [7, 8] [.sent 3, .eintr, .sent 9], .recv [.eagain],
        .getRequest ⟨[.data 3, .data 0], true, 0⟩, .send [9] [.sent 100],
        .getRequest ⟨[.data 9], true, 0⟩, .sendReply [.wrote 2, .eagain],
        .getRequest ⟨[.data 9, .data 9], true, 0⟩,
        .sendReply [.wrote 9, .wrote 9, .wrote 9, .wrote 9],
        .recv [.data 1, .eintr, .data 1, .data 9]]) :=
  session_exact echo (fun _ => true) fits_echo _ (by decide) (by decide +kernel)

end Pink.Pb.Session
