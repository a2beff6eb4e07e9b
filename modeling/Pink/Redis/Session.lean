import Pink.Pb.Session
import Pink.Redis.Recv
import Pink.Server.Answers

/-! # A client and a server of redis commands

A `RedisCli` that sends commands and receives replies, the `RedisConn` of a holy thread that serves
it, and the bytes on their way between the two. `DealMessage` answers each command with at most one
reply. Every `write` may be cut short, the commands arrive in any pieces, and the steps of the two
sides come in any order.

The reader of the client loses a piece of a reply that is cut by the end of a read, and a `Recv`
that times out in the middle of a reply loses what it has read. As long as every read ends with a
piece and no call has failed in the middle, the commands dealt with are the first of those sent, and
the replies received are the first of the answers to them (`conversation_exact`). -/

namespace Pink.Redis.Session

open Pink.Redis.Wire Pink.Redis.Parser Pink.Redis.Format Pink.Redis.Pieces Pink.Redis.Dealt
open Pink.Redis.Recv Pink.Lib.Runs Pink.Server.Answers
open Pink.Redis.Cli (RedisCli Status Code)
open Pink.Redis.Cli.RedisCli (getReplyLoop getReply)
open Pink.Redis.Conn (pending)
open Pink.Redis.Reading (REDIS_MAX_MESSAGE Stuck)
open Pink.Pb.Session (RawSent sendLoop)

/-! ### The session -/

structure State where
  server : HolyConn
  client : RedisCli
  /-- What the client has written and the server has not read. -/
  toServer : Bytes := []
  /-- What the server has sent and has not arrived at the client. -/
  toClient : Bytes := []
  /-- The commands for which `Send` has returned `OK`. -/
  sent : List Argv := []
  /-- What the calls of `Recv` that returned `OK` have given. -/
  received : List Argv := []
  /-- A `Send` or a `Recv` has failed in the middle of a command or of a reply. -/
  broken : Bool := false

inductive Op
  | send (argv : Argv) (rs : List RawSent)
  | recv
  /-- The next `k` bytes arrive at the client, for one `read`. -/
  | arrive (k : ℕ)
  | serve (op : Server.Answers.Op)
  deriving DecidableEq, Repr

/-- The bytes that the client has not consumed. -/
def unread (c : RedisCli) : ℕ := c.rbufOffset.toNat + c.pending

section Steps
variable (string2l : Bytes → ℕ → Option ℤ) (reply : List Argv → Argv → Option Reply)

/-- What `DealMessage` passes to `WriteResp`. -/
def answer (before : List Argv) (c : Argv) : Option Bytes := (reply before c).map Reply.encode

/-- `SerializeRedisCommand` and `Send`, whose loop around `write` is that of `SendRaw`. -/
def State.send (s : State) (argv : Argv) (rs : List RawSent) : State :=
  match redisFormatCommandArgv argv with
  | none => s
  | some cmd =>
    let (out, st) := sendLoop rs cmd []
    { s with
      toServer := s.toServer ++ out
      sent := if st = .ok then s.sent ++ [argv] else s.sent
      broken := decide (st ≠ .ok ∧ out ≠ []) }

def State.recv (s : State) : State :=
  match s.client.recv with
  | (client, _, some argv) => { s with client := client, received := s.received ++ [argv] }
  | (client, _, none) =>
    { s with client := client, broken := decide (unread client ≠ unread s.client) }

def State.arrive (s : State) (k : ℕ) : State :=
  { s with
    toClient := s.toClient.drop k
    client := { s.client with socket := s.client.socket ++ [.data (s.toClient.take k)] } }

/-- A step of the thread; what it sends is on its way to the client. -/
def State.serve (s : State) (op : Server.Answers.Op) : State :=
  let server := Server.Answers.step string2l (answer reply) s.server op
  { s with
    server := server
    toServer := s.toServer.drop (arriving op).length
    toClient := s.toClient ++ server.writer.sent.drop s.server.writer.sent.length }

/-- One step. A client whose call has failed in the middle makes no further calls. -/
def step (s : State) : Op → State
  | .send argv rs => if s.broken then s else s.send argv rs
  | .recv => if s.broken then s else s.recv
  | .arrive k => s.arrive k
  | .serve op => s.serve string2l reply op

end Steps

/-- The commands dealt with. -/
def done (s : State) : List Argv := dealt s.server.reader.redisParser.log

/-- The replies to the commands `cmds` behind the commands `before`. -/
def replies (reply : List Argv → Argv → Option Reply) : List Argv → List Argv → List Reply
  | _, [] => []
  | before, c :: cmds => (reply before c).toList ++ replies reply (before ++ [c]) cmds

/-- The replies to the commands dealt with. -/
def replied (reply : List Argv → Argv → Option Reply) (s : State) : List Reply :=
  replies reply [] (done s)

/-- The stream `ps` has a piece that ends behind its first `n` bytes. -/
def EndsAfter (ps : List Bytes) (n : ℕ) : Prop :=
  ∃ j ∈ List.range (ps.length + 1), (ps.take j).flatten.length = n

instance (ps : List Bytes) (n : ℕ) : Decidable (EndsAfter ps n) :=
  inferInstanceAs (Decidable (∃ j ∈ List.range (ps.length + 1), _))

/-- What can happen: commands are not empty and shorter than `2 ^ 31` bytes, a `read` of the client
gets at most the size of its buffer and ends with a piece of a reply, and the thread reads what has
been written, when epoll reports it. -/
def Possible (reply : List Argv → Argv → Option Reply) (s : State) : Op → Prop
  | .send argv _ => argv ≠ [] ∧ (commandBytes argv).length < 2 ^ 31
  | .recv => True
  | .arrive k => 0 < k ∧ k ≤ s.toClient.length ∧ (k : ℤ) ≤ REDIS_IOBUF_LEN ∧
      EndsAfter ((replied reply s).flatMap Reply.pieces)
        (s.server.writer.sent.length - s.toClient.length + k)
  | .serve op => Fires s.server op ∧ arriving op <+: s.toServer

instance (reply : List Argv → Argv → Option Reply) (s : State) :
    ∀ op, Decidable (Possible reply s op)
  | .send _ _ => inferInstanceAs (Decidable (_ ∧ _))
  | .recv => .isTrue trivial
  | .arrive _ => inferInstanceAs (Decidable (_ ∧ _ ∧ _ ∧ _))
  | .serve _ => inferInstanceAs (Decidable (_ ∧ _))

/-- A client that has just connected, with whatever is in its buffer, and the connection that the
thread has just put in `conns_`. -/
def start (max : ℤ) (rbuf : Bytes) : State :=
  { server := entered max, client := Recv.fresh rbuf [] }

/-! ### Replies and pieces -/

section Replies
variable {reply : List Argv → Argv → Option Reply}

theorem answers_eq : ∀ (before cmds : List Argv),
    answers (answer reply) before cmds = (replies reply before cmds).map Reply.encode
  | _, [] => rfl
  | before, c :: cmds => by
    rw [answers, replies, answers_eq (before ++ [c]) cmds, List.map_append, answer]
    cases reply before c <;> rfl

theorem replies_append : ∀ (before cmds cmds' : List Argv), replies reply before (cmds ++ cmds') =
    replies reply before cmds ++ replies reply (before ++ cmds) cmds'
  | before, [], cmds' => by rw [replies, List.nil_append, List.nil_append, List.append_nil]
  | before, c :: cmds, cmds' => by
    rw [List.cons_append, replies, replies, replies_append (before ++ [c]) cmds cmds',
      List.append_assoc, List.append_assoc]
    rfl

theorem replies_of_forall {P : Reply → Prop} (h : ∀ before c r, reply before c = some r → P r) :
    ∀ (before cmds : List Argv), ∀ r ∈ replies reply before cmds, P r
  | _, [], r, hr => absurd hr List.not_mem_nil
  | before, c :: cmds, r, hr => by
    rw [replies, List.mem_append] at hr
    rcases hr with hr | hr
    · exact h before c r (by simpa using hr)
    · exact replies_of_forall h (before ++ [c]) cmds r hr

theorem flatten_pieces (rs : List Reply) :
    (rs.flatMap Reply.pieces).flatten = (rs.map Reply.encode).flatten := by
  induction rs with
  | nil => rfl
  | cons r rs ih =>
    rw [List.flatMap_cons, List.flatten_append, ih, List.map_cons, List.flatten_cons]
    rfl

theorem ne_nil_of_mem_pieces {rs : List Reply} {p : Bytes} (hp : p ∈ rs.flatMap Reply.pieces) :
    p ≠ [] := by
  obtain ⟨r, -, hr⟩ := List.mem_flatMap.mp hp
  exact pieces_ne_nil hr

theorem pieces_cons (r : Reply) : ∃ p ps, r.pieces = p :: ps := by
  cases r with
  | item i => exact ⟨_, _, rfl⟩
  | array items => exact ⟨_, _, rfl⟩

/-- Pieces that end behind `k` more bytes than `ps` are `ps` and some more. -/
theorem EndsAfter.beyond {ps qs : List Bytes} {k : ℕ} (hk : 0 < k)
    (h : EndsAfter (ps ++ qs) (ps.flatten.length + k)) :
    ∃ g rest, qs = g ++ rest ∧ g ≠ [] ∧ g.flatten.length = k := by
  obtain ⟨j, -, hj⟩ := h
  have hlt : ps.length < j := by
    by_contra hge
    rw [List.take_append_of_le_length (not_lt.mp hge)] at hj
    have hle : (ps.take j).flatten.length ≤ ps.flatten.length := by
      conv_rhs => rw [← List.take_append_drop j ps, List.flatten_append, List.length_append]
      omega
    omega
  rw [List.take_append, List.take_of_length_le hlt.le, List.flatten_append,
    List.length_append] at hj
  have hlen : (qs.take (j - ps.length)).flatten.length = k := by omega
  refine ⟨qs.take (j - ps.length), qs.drop (j - ps.length), (List.take_append_drop _ _).symm, ?_,
    hlen⟩
  intro hnil
  rw [hnil, List.flatten_nil, List.length_nil] at hlen
  omega

end Replies

/-! ### The reader of the client -/

section Client
variable {c : RedisCli} {ps : List Bytes}

theorem pending_groups (later : List (List Bytes)) :
    (({ rbuf := [], socket := later.map fun g => .data g.flatten } : RedisCli)).pending =
      later.flatten.flatten.length := by
  unfold RedisCli.pending
  rw [List.map_map]
  induction later with
  | nil => rfl
  | cons g later ih =>
    simp only [List.map_cons, List.sum_cons, List.flatten_cons, List.flatten_append,
      List.length_append] at ih ⊢
    rw [ih]
    rfl

/-- What the client has not consumed are its pieces. -/
theorem unread_of_feeds (h : Feeds c ps) : unread c = ps.flatten.length := by
  obtain ⟨⟨here, later, hsplit, hh, hs, -⟩, -⟩ := h
  have hpend := pending_groups later
  unfold unread RedisCli.pending at *
  rw [hs, hpend, hh.offset, Int.toNat_natCast, ← hsplit, List.flatten_append, List.length_append]

theorem feeds_arrive {g : List Bytes} (h : Feeds c ps) (hg : g ≠ []) (hne : ∀ p ∈ g, p ≠ [])
    (hlen : (g.flatten.length : ℤ) ≤ REDIS_IOBUF_LEN) :
    Feeds { c with socket := c.socket ++ [.data g.flatten] } (ps ++ g) := by
  obtain ⟨⟨here, later, hsplit, hh, hs, hl⟩, hps⟩ := h
  refine ⟨⟨here, later ++ [g], ?_, ⟨hh.fault, hh.pos, hh.size, hh.offset, hh.bytes⟩, ?_, ?_⟩, ?_⟩
  · rw [← hsplit]
    simp
  · simp [hs]
  · intro g' hg'
    rcases List.mem_append.mp hg' with hg' | hg'
    · exact hl g' hg'
    · rw [List.mem_singleton.mp hg']
      exact ⟨hg, hlen⟩
  · intro p hp
    rcases List.mem_append.mp hp with hp | hp
    · exact hps p hp
    · exact hne p hp

/-- A refill with nothing there times out. -/
theorem refill_nil (h : Feeds c []) :
    ∃ c', c.refill .ok = (c', some .etimeout) ∧ Feeds c' [] := by
  obtain ⟨⟨here, later, hsplit, hh, hs, hl⟩, -⟩ := h
  obtain ⟨rfl, hlater⟩ := List.append_eq_nil_iff.mp hsplit
  have hnil : later = [] := by
    cases later with
    | nil => rfl
    | cons g later =>
      rw [List.flatten_cons, List.append_eq_nil_iff] at hlater
      exact absurd hlater.1 (hl g List.mem_cons_self).1
  subst hnil
  have hoff : c.rbufOffset = 0 := hh.offset
  have hfeeds : ∀ c' : RedisCli, c'.fault = c.fault → 0 ≤ c'.rbufPos → c'.rbuf = c.rbuf →
      c'.rbufOffset = c.rbufOffset → c'.socket = [] → Feeds c' [] :=
    fun c' h1 h2 h3 h4 h5 => ⟨⟨[], [], rfl, ⟨h1.trans hh.fault, h2, by rw [h3, hh.size],
      by rw [h4, hoff]; rfl, List.nil_prefix⟩, h5, by simp⟩, by simp⟩
  rw [RedisCli.refill, if_pos (.inl hoff), RedisCli.bufferRead, hs]
  by_cases hpos : c.rbufPos > 0
  · rw [if_pos hpos, if_neg (by omega)]
    exact ⟨_, rfl, hfeeds _ rfl le_rfl rfl rfl rfl⟩
  · rw [if_neg hpos]
    exact ⟨_, rfl, hfeeds _ rfl hh.pos rfl rfl rfl⟩

theorem getReplyLoop_nil {n : ℕ} (h : Feeds c []) (hel : c.elements > 0) :
    ∃ c', getReplyLoop (n + 1) c .ok = (c', .etimeout) ∧ Feeds c' [] := by
  obtain ⟨c', hr, hf⟩ := refill_nil h
  refine ⟨c', ?_, hf⟩
  rw [getReplyLoop, if_pos hel, hr]

/-- The loop times out behind the items that are there, if there are too few. -/
theorem items_short : ∀ (items : List Item) {c : RedisCli} {n : ℕ}, (∀ i ∈ items, i.Valid) →
    Feeds c (items.map Item.encode) → (items.length : ℤ) < c.elements → items.length < n →
    ∃ c', getReplyLoop n c .ok = (c', .etimeout) ∧ Feeds c' [] := by
  intro items
  induction items with
  | nil =>
    intro c n _ hf hel hn
    obtain ⟨n, rfl⟩ : ∃ m, n = m + 1 := ⟨n - 1, by omega⟩
    exact getReplyLoop_nil hf (by simpa using hel)
  | cons i items ih =>
    intro c n hv hf hel hn
    obtain ⟨n, rfl⟩ : ∃ m, n = m + 1 := ⟨n - 1, by omega⟩
    rw [List.length_cons] at hel hn
    obtain ⟨c', hl, hf', -, he⟩ := turn_took (n := n) i.payloads (c.elements - 1) hf
      (by push_cast at hel; omega) fun c1 w h1 he1 => by
        rw [← he1]
        exact item_took (hv i List.mem_cons_self).line h1
    obtain ⟨c'', hl', hf''⟩ := ih (n := n) (fun j hj => hv j (List.mem_cons_of_mem _ hj)) hf'
      (by rw [he]; push_cast at hel; omega) (by omega)
    exact ⟨c'', hl.trans hl', hf''⟩

/-- **A `Recv` on a reply that is not all there times out**, and what is there is lost. -/
theorem recv_short {r : Reply} {rest : List Bytes} (hv : r.Valid) (hn : r.Counted)
    (h : Feeds c ps) (hr : r.pieces = ps ++ rest) (hrest : rest ≠ []) :
    ∃ c', c.recv = (c', .timeout "", none) ∧ Feeds c' [] := by
  have hle := h.length_le
  have h0 : Feeds { c with argv := [], elements := 1 } ps := h.congr rfl rfl rfl rfl rfl
  have key : ∃ c', getReply { c with argv := [] } = (c', .etimeout) ∧ Feeds c' [] := by
    unfold getReply
    rcases ps with _ | ⟨p, ps⟩
    · exact getReplyLoop_nil h0 one_pos
    cases r with
    | item i =>
      have hlen := congrArg List.length hr
      have := List.length_pos_iff.mpr hrest
      simp only [Reply.pieces, List.length_append, List.length_cons, List.length_nil] at hlen
      omega
    | array items =>
      rw [Reply.pieces, List.cons_append, List.cons.injEq] at hr
      obtain ⟨rfl, hitems⟩ := hr
      obtain ⟨here, later, rfl, rfl, rfl⟩ := List.map_eq_append_iff.mp hitems
      have hlater := List.length_pos_iff.mpr hrest
      rw [List.length_map] at hlater
      rw [List.length_cons, List.length_map] at hle
      obtain ⟨c1, hl1, hf1, -, he1⟩ := turn_took [] (here ++ later).length
        (n := c.rbufOffset.toNat + c.pending + c.rbuf.length + 1) h0 one_pos
        fun c1 w h1 _ => arrayHeader_took hn h1
      obtain ⟨c', hl, hf⟩ := items_short here (n := c.rbufOffset.toNat + c.pending +
        c.rbuf.length + 1) (fun i hi => hv i (List.mem_append_left _ hi)) hf1
        (by rw [he1, List.length_append]; push_cast; omega) (by omega)
      exact ⟨c', hl1.trans hl, hf⟩
  obtain ⟨c', hg, hf⟩ := key
  refine ⟨c', ?_, hf⟩
  rw [RedisCli.recv, hg]

end Client

/-! ### The thread -/

section Server
variable {string2l : Bytes → ℕ → Option ℤ} {answer : List Argv → Argv → Option Bytes}

theorem sendReply_sent {c : Redis.Conn.RedisConn} {ws : List Redis.Conn.Writev}
    {x : Redis.Conn.RedisConn × Redis.Conn.WriteStatus} (hx : c.sendReply ws = x) :
    c.sent <+: x.1.sent := by
  rw [Redis.Conn.RedisConn.sendReply] at hx
  dsimp only at hx
  by_cases h0 : toInt32 c.response.length = 0
  · rw [if_pos h0] at hx
    rw [← hx]
  rw [if_neg h0] at hx
  by_cases hidle : c.iovIdx < 0
  swap
  · rw [if_neg hidle] at hx
    rw [← hx]
    exact writeLoop_sent ws c
  rw [if_pos hidle] at hx
  split_ifs at hx
  · rw [← hx]
  · rw [← hx]
  · rw [← hx]
    exact writeLoop_sent ws { c with iov := _, iovIdx := 0 }

theorem foldl_writeResp_sent (resps : List Bytes) : ∀ c : Redis.Conn.RedisConn,
    (resps.foldl Redis.Conn.RedisConn.writeResp c).sent = c.sent := by
  induction resps with
  | nil => exact fun _ => rfl
  | cons r resps ih => exact fun c => ih (c.writeResp r)

theorem getRequest_sent (s : HolyConn) (alloc : Bool) (r : Redis.Reading.ReadResult) :
    (s.getRequest string2l answer alloc r).writer.sent = s.writer.sent := by
  unfold HolyConn.getRequest
  dsimp only
  split_ifs <;> exact foldl_writeResp_sent _ _

/-- The reply part of an event keeps the reader and sends on. -/
theorem finish_reply (s : HolyConn) (mask : Server.Threads.Mask) (ws : List Redis.Conn.Writev)
    (b : Bool) : (HolyConn.finish mask (s.reply mask ws b)).reader = s.reader ∧
      s.writer.sent <+: (HolyConn.finish mask (s.reply mask ws b)).writer.sent := by
  obtain ⟨x, hx⟩ : ∃ x, s.writer.sendReply ws = x := ⟨_, rfl⟩
  have hsent := sendReply_sent hx
  unfold HolyConn.reply
  by_cases hout : mask.epollout = true
  · rw [if_pos hout, hx]
    obtain ⟨c, _ | _ | _⟩ := x <;> exact ⟨rfl, hsent⟩
  · rw [if_neg hout]
    exact ⟨rfl, List.prefix_refl _⟩

/-- An event reads what `GetRequest` reads, and sends on. -/
theorem handleConnEvent_keeps (s : HolyConn) (mask : Server.Threads.Mask) (alloc : Bool)
    (r : Redis.Reading.ReadResult) (ws : List Redis.Conn.Writev) :
    (s.handleConnEvent string2l answer mask alloc r ws).reader =
        (if mask.epollin then Redis.Reading.step string2l s.reader (.getRequest alloc r)
          else s.reader) ∧
      s.writer.sent <+: (s.handleConnEvent string2l answer mask alloc r ws).writer.sent := by
  by_cases hin : mask.epollin = true
  swap
  · rw [handleConnEvent_some (request_of_not_in (by simpa using hin)), if_neg hin]
    exact finish_reply s mask ws false
  have hreader : (s.getRequest string2l answer alloc r).reader =
      Redis.Reading.step string2l s.reader (.getRequest alloc r) := rfl
  have hsent : (s.getRequest string2l answer alloc r).writer.sent = s.writer.sent :=
    getRequest_sent s alloc r
  rw [if_pos hin, ← hreader, ← hsent]
  unfold HolyConn.handleConnEvent HolyConn.request
  rw [if_pos hin]
  generalize s.getRequest string2l answer alloc r = s'
  dsimp only
  split_ifs
  · exact finish_reply s' mask ws true
  · exact finish_reply { s' with interest := { epollout := true } } mask ws false
  · exact ⟨rfl, List.prefix_refl _⟩

theorem step_sent (s : HolyConn) (op : Server.Answers.Op) :
    s.writer.sent <+: (Server.Answers.step string2l answer s op).writer.sent := by
  unfold Server.Answers.step
  split_ifs
  · exact List.prefix_refl _
  cases op with
  | event mask alloc r ws => exact (handleConnEvent_keeps s mask alloc r ws).2
  | tryResizeBuffer idletime => exact List.prefix_refl _
  | close => exact List.prefix_refl _

/-- **A step deals with further commands** and forgets none. -/
theorem step_dealt (hs : String2lSpec string2l) {all : List Argv}
    (hall : ∀ c ∈ all, Short (2 ^ 31) c) {s : HolyConn} {t : Bytes}
    (h : Server.Answers.Inv string2l answer all s t) {op : Server.Answers.Op} (hf : Fires s op)
    (ht : t ++ arriving op <+: stream all) :
    dealt s.reader.redisParser.log <+:
      dealt (Server.Answers.step string2l answer s op).reader.redisParser.log := by
  unfold Server.Answers.step
  split_ifs with hc
  · exact List.prefix_refl _
  rw [Bool.not_eq_true] at hc
  cases op with
  | event mask alloc r ws =>
    dsimp only
    rw [(handleConnEvent_keeps s mask alloc r ws).1]
    by_cases hin : mask.epollin = true
    swap
    · rw [if_neg hin]
    have harr : arriving (.event mask alloc r ws) =
        Redis.Pipeline.arriving (.getRequest alloc r) := by
      rcases r with b | _ | _ | _ <;> simp [arriving, Redis.Pipeline.arriving, hin]
    rw [harr] at ht
    obtain ⟨em, hem, -⟩ :=
      (h.deals.delivers (hf.2.2 hin).2 (h.serving hc).1 hs hall ht).dealt
    rw [if_pos hin, hem]
    exact List.prefix_append _ _
  | tryResizeBuffer idletime =>
    dsimp only
    rw [(reader_tryResizeBuffer string2l s.reader idletime).1]
  | close => exact List.prefix_refl _

end Server

/-! ### The invariant -/

/-- The server has taken its steps on the first bytes of the commands sent, and of the replies to
those dealt with the first, `got`, have been received; of the others the pieces `ps` have arrived.
-/
structure Inv (string2l : Bytes → ℕ → Option ℤ) (reply : List Argv → Argv → Option Reply) (max : ℤ)
    (s : State) : Prop where
  server : ∃ ops, s.server = run (Server.Answers.step string2l (answer reply)) (entered max) ops ∧
    Guarded (Server.Answers.step string2l (answer reply)) Fires (entered max) ops ∧
    ops.flatMap arriving ++ s.toServer = stream s.sent
  short : ∀ c ∈ s.sent, Short (2 ^ 31) c
  client : ∃ got todo ps qs, replied reply s = got ++ todo ∧
    s.received = got.map Reply.payloads ∧ todo.flatMap Reply.pieces = ps ++ qs ∧
    Feeds s.client ps ∧
    s.server.writer.sent = (got.flatMap Reply.pieces ++ ps).flatten ++ s.toClient

section Invariant
variable {string2l : Bytes → ℕ → Option ℤ} (hs : String2lSpec string2l)
  {reply : List Argv → Argv → Option Reply}
  (hreply : ∀ before c r, reply before c = some r → r.Valid ∧ r.Counted)
  {max : ℤ} (hmax : max ≤ REDIS_MAX_MESSAGE) {s : State}

theorem answer_ne_nil (before : List Argv) (c : Argv) : answer reply before c ≠ some [] := by
  unfold answer
  cases reply before c with
  | none => simp
  | some r =>
    obtain ⟨p, ps, hr⟩ := pieces_cons r
    have hp : p ≠ [] := pieces_ne_nil (r := r) (by rw [hr]; exact List.mem_cons_self)
    simp [Reply.encode, hr, hp]

include hreply in
theorem replied_fits {r : Reply} (hr : r ∈ replied reply s) : r.Valid ∧ r.Counted :=
  replies_of_forall hreply [] _ r hr

include hs hmax

/-- What the thread keeps. -/
theorem Inv.thread (h : Inv string2l reply max s) :
    ∃ t, Server.Answers.Inv string2l (answer reply) s.sent s.server t ∧
      t ++ s.toServer = stream s.sent := by
  obtain ⟨ops, hserver, hg, ht⟩ := h.server
  refine ⟨ops.flatMap arriving, ?_, ht⟩
  have hrun := inv_run hs h.short answer_ne_nil ops (inv_entered hmax) hg
    (by rw [List.nil_append]; exact ⟨_, ht⟩)
  rwa [List.nil_append, ← hserver] at hrun

/-- All the replies, and what of them has been sent. -/
theorem Inv.unsent (h : Inv string2l reply max s) :
    ((replied reply s).flatMap Reply.pieces).flatten =
      s.server.writer.sent ++ pending s.server.writer := by
  obtain ⟨t, ht, -⟩ := h.thread hs hmax
  have hbalance := ht.writer.balance
  rw [ht.accepted, answers_eq] at hbalance
  rw [hbalance, flatten_pieces]
  rfl

/-- The pieces that have not arrived are on their way or to be sent. -/
theorem Inv.later (h : Inv string2l reply max s) {got todo : List Reply} {ps qs : List Bytes}
    (hrs : replied reply s = got ++ todo) (hps : todo.flatMap Reply.pieces = ps ++ qs)
    (hsent : s.server.writer.sent = (got.flatMap Reply.pieces ++ ps).flatten ++ s.toClient) :
    qs.flatten = s.toClient ++ pending s.server.writer := by
  have hall := h.unsent hs hmax
  rw [hrs, List.flatMap_append, hps, ← List.append_assoc, List.flatten_append, hsent,
    List.append_assoc, List.append_cancel_left_eq] at hall
  exact hall

omit hs hmax in
theorem Inv.send (h : Inv string2l reply max s) {argv : Argv} (hargv : argv ≠ [])
    (hlen : (commandBytes argv).length < 2 ^ 31) (rs : List RawSent)
    (hb : (s.send argv rs).broken = false) : Inv string2l reply max (s.send argv rs) := by
  obtain ⟨p, hout, -, hok⟩ := Pb.Session.sendLoop_prefix rs (commandBytes argv) []
  unfold State.send at hb ⊢
  rw [redisFormatCommandArgv_eq hlen] at hb ⊢
  dsimp only at hb ⊢
  generalize sendLoop rs (commandBytes argv) [] = r at hout hok hb
  obtain ⟨out, st⟩ := r
  dsimp only at hout hok hb ⊢
  rw [List.nil_append] at hout
  subst hout
  obtain ⟨ops, hserver, hg, ht⟩ := h.server
  by_cases hst : st = .ok
  · rw [if_pos hst, hok hst]
    refine ⟨⟨ops, hserver, hg, ?_⟩, fun c hc => ?_, h.client⟩
    · dsimp only
      rw [← List.append_assoc, ht, stream_append]
      simp [stream]
    · rcases List.mem_append.mp hc with hc | hc
      · exact h.short c hc
      · rw [List.mem_singleton.mp hc]
        exact ⟨hargv, hlen⟩
  · -- nothing of the command has been taken
    have hp : out = [] := by
      by_contra hne
      rw [decide_eq_true ⟨hst, hne⟩] at hb
      cases hb
    subst hp
    rw [if_neg hst, List.append_nil]
    exact ⟨⟨ops, hserver, hg, ht⟩, h.short, h.client⟩

include hreply in
omit hs hmax in
/-- **A `Recv` gets the next reply if it has arrived**, and nothing otherwise. -/
theorem Inv.recv (h : Inv string2l reply max s) (hb : s.recv.broken = false) :
    Inv string2l reply max s.recv := by
  obtain ⟨got, todo, ps, qs, hrs, hreceived, hps, hfeeds, hsent⟩ := h.client
  have hunread := unread_of_feeds hfeeds
  -- a time-out behind pieces that are there breaks the session
  have hshort : ∀ {c' : RedisCli}, s.client.recv = (c', .timeout "", none) → Feeds c' [] →
      Inv string2l reply max s.recv := by
    intro c' hrecv hf
    have hunread' := unread_of_feeds hf
    unfold State.recv at hb ⊢
    rw [hrecv] at hb ⊢
    dsimp only at hb ⊢
    rw [hunread, hunread'] at hb
    have hnil : ps = [] := by
      rcases ps with _ | ⟨p, ps⟩
      · rfl
      · have hp := List.length_pos_iff.mpr (hfeeds.nonempty p List.mem_cons_self)
        simp only [List.flatten_cons, List.length_append, List.flatten_nil, List.length_nil] at hb
        rw [decide_eq_true (by omega)] at hb
        cases hb
    subst hnil
    exact ⟨h.server, h.short, got, todo, [], qs, hrs, hreceived, hps, hf, hsent⟩
  rcases todo with _ | ⟨r, todo⟩
  · obtain ⟨hnil, -⟩ := List.append_eq_nil_iff.mp hps.symm
    subst hnil
    obtain ⟨c', hrecv, hf⟩ := recv_short (r := .item .nil) ⟨by simp, by decide +kernel⟩ trivial
      hfeeds (by rw [List.nil_append]) (by simp [Reply.pieces])
    exact hshort hrecv hf
  obtain ⟨hv, hn⟩ := replied_fits hreply (s := s) (r := r) (by rw [hrs]; simp)
  rw [List.flatMap_cons] at hps
  rcases List.append_eq_append_iff.mp hps with ⟨here, hps', hrest⟩ | ⟨there, hpieces, hqs⟩
  · -- the whole reply has arrived
    subst hps'
    obtain ⟨c', hrecv, hf⟩ := recv_reply hv hn hfeeds
    unfold State.recv
    rw [hrecv]
    refine ⟨h.server, h.short, got ++ [r], todo, here, qs, ?_, ?_, hrest, hf, ?_⟩
    · rw [List.append_assoc]
      exact hrs
    · dsimp only
      rw [hreceived, List.map_append]
      rfl
    · dsimp only
      rw [hsent]
      simp
  · rcases there with _ | ⟨q, there⟩
    · rw [List.append_nil] at hpieces
      rw [List.nil_append] at hqs
      subst hpieces
      rw [← List.append_nil r.pieces] at hfeeds
      obtain ⟨c', hrecv, hf⟩ := recv_reply hv hn hfeeds
      unfold State.recv
      rw [hrecv]
      refine ⟨h.server, h.short, got ++ [r], todo, [], qs, ?_, ?_, hqs.symm, hf, ?_⟩
      · rw [List.append_assoc]
        exact hrs
      · dsimp only
        rw [hreceived, List.map_append]
        rfl
      · dsimp only
        rw [hsent]
        simp
    · obtain ⟨c', hrecv, hf⟩ := recv_short hv hn hfeeds hpieces (by simp)
      exact hshort hrecv hf

/-- **What arrives are whole pieces.** -/
theorem Inv.arrive (h : Inv string2l reply max s) {k : ℕ} (hk : 0 < k)
    (hle : k ≤ s.toClient.length) (hsize : (k : ℤ) ≤ REDIS_IOBUF_LEN)
    (hends : EndsAfter ((replied reply s).flatMap Reply.pieces)
      (s.server.writer.sent.length - s.toClient.length + k)) :
    Inv string2l reply max (s.arrive k) := by
  obtain ⟨got, todo, ps, qs, hrs, hreceived, hps, hfeeds, hsent⟩ := h.client
  have hlater := h.later hs hmax hrs hps hsent
  have hat : s.server.writer.sent.length - s.toClient.length =
      (got.flatMap Reply.pieces ++ ps).flatten.length := by
    rw [hsent, List.length_append, Nat.add_sub_cancel]
  rw [hat, hrs, List.flatMap_append, hps, ← List.append_assoc] at hends
  obtain ⟨g, rest, rfl, hg, hlen⟩ := hends.beyond hk
  rw [List.flatten_append] at hlater
  have hbytes : s.toClient.take k = g.flatten := by
    have := congrArg (List.take k) hlater
    rwa [← hlen, List.take_left, hlen, List.take_append_of_le_length hle, eq_comm] at this
  have hne : ∀ p ∈ g, p ≠ [] := by
    intro p hp
    have hp' : p ∈ todo.flatMap Reply.pieces := by
      rw [hps]
      simp [hp]
    exact ne_nil_of_mem_pieces hp'
  unfold State.arrive
  refine ⟨h.server, h.short, got, todo, ps ++ g, rest, hrs, hreceived, ?_, ?_, ?_⟩
  · rw [hps, List.append_assoc]
  · dsimp only
    rw [hbytes]
    exact feeds_arrive hfeeds hg hne (by rw [hlen]; exact hsize)
  · dsimp only
    rw [hsent]
    conv_lhs => rw [← List.take_append_drop k s.toClient, hbytes]
    simp

/-- **A step of the thread.** -/
theorem Inv.serve (h : Inv string2l reply max s) {op : Server.Answers.Op}
    (hf : Fires s.server op) (harr : arriving op <+: s.toServer) :
    Inv string2l reply max (s.serve string2l reply op) := by
  obtain ⟨t, hthread, ht⟩ := h.thread hs hmax
  obtain ⟨u, hu⟩ := harr
  have hpre : t ++ arriving op <+: stream s.sent := ⟨u, by rw [List.append_assoc, hu, ht]⟩
  obtain ⟨more, hmore⟩ := step_dealt hs h.short hthread hf hpre
  obtain ⟨out, hout⟩ : s.server.writer.sent <+:
      (Server.Answers.step string2l (answer reply) s.server op).writer.sent := step_sent s.server op
  obtain ⟨ops, hserver, hg, hops⟩ := h.server
  obtain ⟨got, todo, ps, qs, hrs, hreceived, hps, hfeeds, hsent⟩ := h.client
  have hdone : done (s.serve string2l reply op) = done s ++ more := hmore.symm
  unfold State.serve
  refine ⟨⟨ops ++ [op], ?_, ?_, ?_⟩, h.short, got, todo ++ replies reply (done s) more, ps,
    qs ++ (replies reply (done s) more).flatMap Reply.pieces, ?_, hreceived, ?_, hfeeds, ?_⟩
  · dsimp only
    rw [run_append, hserver]
    rfl
  · refine guarded_append.mpr ⟨hg, ?_, trivial⟩
    rwa [← hserver]
  · dsimp only
    rw [List.flatMap_append, List.flatMap_cons, List.flatMap_nil, List.append_nil, ← hops, ← hu,
      List.drop_left, List.append_assoc]
  · unfold replied at hrs ⊢
    change replies reply [] (done (s.serve string2l reply op)) = _
    rw [hdone, replies_append, hrs, List.append_assoc]
    rfl
  · rw [List.flatMap_append, hps, List.append_assoc]
  · dsimp only
    rw [← hout, List.drop_left, hsent, List.append_assoc]

include hreply in
/-- **Every step keeps the invariant**, unless a call fails in the middle. -/
theorem Inv.step (h : Inv string2l reply max s) (hbroken : s.broken = false) {op : Op}
    (hop : Possible reply s op)
    (hb : (Session.step string2l reply s op).broken = false) :
    Inv string2l reply max (Session.step string2l reply s op) := by
  cases op with
  | send argv rs =>
    unfold Session.step at hb ⊢
    dsimp only at hb ⊢
    rw [if_neg (by simp [hbroken])] at hb ⊢
    exact h.send hop.1 hop.2 rs hb
  | recv =>
    unfold Session.step at hb ⊢
    dsimp only at hb ⊢
    rw [if_neg (by simp [hbroken])] at hb ⊢
    exact h.recv hreply hb
  | arrive k => exact h.arrive hs hmax hop.1 hop.2.1 hop.2.2.1 hop.2.2.2
  | serve op => exact h.serve hs hmax hop.1 hop.2

omit hs hmax in
/-- A client whose call has failed in the middle does not go on. -/
theorem step_broken (hbroken : s.broken = true) (op : Op) :
    (Session.step string2l reply s op).broken = true := by
  cases op with
  | send argv rs => unfold Session.step; dsimp only; rw [if_pos hbroken]; exact hbroken
  | recv => unfold Session.step; dsimp only; rw [if_pos hbroken]; exact hbroken
  | arrive k => exact hbroken
  | serve op => exact hbroken

end Invariant

/-! ### The result -/

/-- What holds of a session in which no call has failed in the middle. -/
structure Exact (string2l : Bytes → ℕ → Option ℤ) (reply : List Argv → Argv → Option Reply)
    (s : State) : Prop where
  safe : ¬Stuck s.server.reader ∧ s.server.writer.fault = none ∧ s.client.fault = none
  /-- The commands dealt with are the first of those sent, and the replies received the first of the
  replies to these. -/
  inOrder : done s <+: s.sent ∧ s.received <+: (replied reply s).map Reply.payloads
  /-- When the server has read everything, it has dealt with all commands. -/
  served : s.server.closed = false → s.toServer = [] → done s = s.sent
  /-- When nothing is on its way or to be sent, all replies have been received. -/
  complete : s.server.closed = false → s.toServer = [] → s.server.interest.epollout = false →
    s.toClient = [] → unread s.client = 0 →
    s.received = (replies reply [] s.sent).map Reply.payloads
  /-- A `Recv` that finds the next reply receives it. -/
  next : ∀ r, (replied reply s)[s.received.length]? = some r →
    r.encode.length ≤ unread s.client →
    (step string2l reply s .recv).received = s.received ++ [r.payloads]

section Result
variable {string2l : Bytes → ℕ → Option ℤ} (hs : String2lSpec string2l)
  {reply : List Argv → Argv → Option Reply}
  (hreply : ∀ before c r, reply before c = some r → r.Valid ∧ r.Counted)
  {max : ℤ} (hmax : max ≤ REDIS_MAX_MESSAGE) {s : State}

theorem flatMap_pieces_eq_nil {rs : List Reply} (h : rs.flatMap Reply.pieces = []) : rs = [] := by
  rcases rs with _ | ⟨r, rs⟩
  · rfl
  · obtain ⟨p, ps, hr⟩ := pieces_cons r
    rw [List.flatMap_cons, hr] at h
    cases h

theorem flatten_eq_nil {ps : List Bytes} (hne : ∀ p ∈ ps, p ≠ []) (h : ps.flatten = []) :
    ps = [] := by
  rcases ps with _ | ⟨p, ps⟩
  · rfl
  · exact absurd (List.append_eq_nil_iff.mp h).1 (hne p List.mem_cons_self)

include hs hmax

/-- The server has dealt with everything. -/
theorem Inv.served (h : Inv string2l reply max s) (hc : s.server.closed = false)
    (hin : s.toServer = []) : done s = s.sent := by
  obtain ⟨t, hthread, ht⟩ := h.thread hs hmax
  rw [hin, List.append_nil] at ht
  obtain ⟨todo, hall, hholds, -⟩ := hthread.deals.holds hs h.short (hthread.serving hc).1
    (by rw [ht])
  rcases todo with _ | ⟨c, todo⟩
  · rw [List.append_nil] at hall
    exact hall.symm
  · have hlt := hholds.part c rfl
    rw [ht, hall, stream_append] at hlt
    simp only [stream, List.flatMap_cons, List.length_append] at hlt
    omega

/-- Nothing is left to be sent. -/
theorem Inv.pending_eq_nil (h : Inv string2l reply max s) (hc : s.server.closed = false)
    (hout : s.server.interest.epollout = false) : pending s.server.writer = [] := by
  obtain ⟨t, hthread, -⟩ := h.thread hs hmax
  rcases (hthread.serving hc).2 with hwait | hbusy
  · exact hwait.pending
  · rw [hbusy.interest] at hout
    cases hout

include hreply in
omit hs hmax in
/-- The next reply is received as soon as it is there. -/
theorem Inv.next (h : Inv string2l reply max s) (hbroken : s.broken = false) {r : Reply}
    (hr : (replied reply s)[s.received.length]? = some r)
    (hlen : r.encode.length ≤ unread s.client) :
    (Session.step string2l reply s .recv).received = s.received ++ [r.payloads] := by
  obtain ⟨got, todo, ps, qs, hrs, hreceived, hps, hfeeds, hsent⟩ := h.client
  obtain ⟨todo, rfl⟩ : ∃ rest, todo = r :: rest := by
    rw [hrs, hreceived, List.length_map, List.getElem?_append_right le_rfl, Nat.sub_self] at hr
    rcases todo with _ | ⟨r', todo⟩
    · cases hr
    · exact ⟨todo, by rw [Option.some.inj hr]⟩
  obtain ⟨hv, hn⟩ := replied_fits hreply (s := s) (r := r) (by rw [hrs]; simp)
  obtain ⟨ps', rfl⟩ : r.pieces <+: ps := by
    rw [List.flatMap_cons] at hps
    rcases List.append_eq_append_iff.mp hps with ⟨here, hps', -⟩ | ⟨there, hpieces, -⟩
    · exact ⟨here, hps'.symm⟩
    · rw [unread_of_feeds hfeeds, Reply.encode, hpieces, List.flatten_append,
        List.length_append] at hlen
      have hne : ∀ p ∈ there, p ≠ [] := by
        intro p hp
        have hp' : p ∈ r.pieces := by
          rw [hpieces]
          exact List.mem_append_right _ hp
        exact pieces_ne_nil hp'
      have hnil := flatten_eq_nil hne (List.length_eq_zero_iff.mp (by omega))
      rw [hnil, List.append_nil] at hpieces
      rw [hpieces]
  obtain ⟨c', hrecv, -⟩ := recv_reply hv hn hfeeds
  unfold Session.step State.recv
  dsimp only
  rw [if_neg (by simp [hbroken]), hrecv]

include hreply in
theorem exact_of_inv (h : Inv string2l reply max s) (hbroken : s.broken = false) :
    Exact string2l reply s := by
  obtain ⟨t, hthread, ht⟩ := h.thread hs hmax
  obtain ⟨got, todo, ps, qs, hrs, hreceived, hps, hfeeds, hsent⟩ := h.client
  refine ⟨⟨hthread.deals.stuck, hthread.writer.fault, hfeeds.fault⟩,
    ⟨hthread.deals.prefix_all, ?_⟩, fun hc hin => h.served hs hmax hc hin,
    fun hc hin hout hcl hun => ?_, fun r hr hlen => h.next hreply hbroken hr hlen⟩
  · rw [hreceived, hrs, List.map_append]
    exact List.prefix_append _ _
  · -- no piece is left
    have hps' : ps = [] := flatten_eq_nil hfeeds.nonempty (by
      rwa [unread_of_feeds hfeeds, List.length_eq_zero_iff] at hun)
    have hqs : qs = [] := by
      refine flatten_eq_nil (fun p hp => ?_) ?_
      · have hp' : p ∈ todo.flatMap Reply.pieces := by
          rw [hps]
          exact List.mem_append_right _ hp
        exact ne_nil_of_mem_pieces hp'
      · rw [h.later hs hmax hrs hps hsent, hcl, h.pending_eq_nil hs hmax hc hout, List.append_nil]
    rw [hps', hqs, List.append_nil] at hps
    rw [flatMap_pieces_eq_nil hps, List.append_nil] at hrs
    rw [hreceived, ← hrs, replied, h.served hs hmax hc hin]

end Result

theorem inv_start (string2l : Bytes → ℕ → Option ℤ) (reply : List Argv → Argv → Option Reply)
    (max : ℤ) {rbuf : Bytes} (hbuf : (rbuf.length : ℤ) = REDIS_IOBUF_LEN) :
    Inv string2l reply max (start max rbuf) :=
  ⟨⟨[], rfl, trivial, rfl⟩, fun c hc => absurd hc List.not_mem_nil,
    [], [], [], [], rfl, rfl, rfl,
    ⟨⟨[], [], rfl, ⟨rfl, le_rfl, hbuf, rfl, List.nil_prefix⟩, rfl, by simp⟩, by simp⟩, rfl⟩

/-- **Commands and replies are delivered once and in order.** However the commands are cut on their
way, and in whatever order the two sides take their steps, as long as every read of the client ends
with a piece of a reply and none of its calls has failed in the middle. -/
theorem conversation_exact {string2l : Bytes → ℕ → Option ℤ} (hs : String2lSpec string2l)
    {reply : List Argv → Argv → Option Reply}
    (hreply : ∀ before c r, reply before c = some r → r.Valid ∧ r.Counted) {max : ℤ}
    (hmax : max ≤ REDIS_MAX_MESSAGE) {rbuf : Bytes} (hbuf : (rbuf.length : ℤ) = REDIS_IOBUF_LEN)
    (ops : List Op)
    (hops : Guarded (step string2l reply) (Possible reply) (start max rbuf) ops)
    (hb : (run (step string2l reply) (start max rbuf) ops).broken = false) :
    Exact string2l reply (run (step string2l reply) (start max rbuf) ops) := by
  refine exact_of_inv hs hreply hmax ?_ hb
  revert hb
  refine run_inv (fun s : State => s.broken = false → Inv string2l reply max s)
    (fun s op h hop hb => ?_) (fun _ => inv_start string2l reply max hbuf) hops
  by_cases hbroken : s.broken = false
  · exact (h hbroken).step hs hreply hmax hbroken hop hb
  · have hbroken' : s.broken = true := by simpa using hbroken
    rw [step_broken hbroken'] at hb
    cases hb

/-- A server that answers the first command with `+OK` and every other with an array. -/
def greet (before : List Argv) (_ : Argv) : Option Reply :=
  if before = [] then some (.item (.line .status (bytes "OK")))
  else some (.array [.nil, .bulk (bytes "hi")])

theorem greet_fits (before : List Argv) (c : Argv) (r : Reply) (h : greet before c = some r) :
    r.Valid ∧ r.Counted := by
  unfold greet at h
  split_ifs at h
  · obtain rfl := Option.some.inj h
    refine ⟨⟨fun t text htext => ?_, by decide +kernel⟩, trivial⟩
    cases htext
    decide +kernel
  · obtain rfl := Option.some.inj h
    refine ⟨fun i hi => ?_, by show 2 < 2 ^ 31; decide⟩
    simp only [List.mem_cons, List.not_mem_nil, or_false] at hi
    rcases hi with rfl | rfl
    · exact ⟨by simp, by decide +kernel⟩
    · exact ⟨by simp, by decide +kernel⟩

/-- Two commands and their replies, in pieces. -/
theorem conversation_exact_two : Exact Wire.string2l greet
    (run (step Wire.string2l greet) (start REDIS_MAX_MESSAGE zeros)
      [.send [bytes "PING"] [.sent 5, .eintr, .sent 100], .recv,
        .send [bytes "GET", bytes "a"] [.sent 100],
        .serve (.event { epollin := true } true
          (.data (bytes "*1\r\n$4\r\nPING\r\n*2\r\n$3\r\nGE")) []),
        .serve (.event { epollout := true } true .eagain [⟨3, -1, .eagain⟩]),
        .serve (.event { epollout := true } true .eagain [⟨40, 2, .eagain⟩]), .arrive 5,
        .serve (.event { epollin := true } true (.data (bytes "T\r\n$1\r\na\r\n")) []), .recv,
        .serve (.event { epollout := true } true .eagain [⟨40, 17, .eagain⟩]), .arrive 9,
        .arrive 8, .recv]) :=
  conversation_exact string2l_spec greet_fits le_rfl length_zeros _ (by decide +kernel)
    (by decide +kernel)

end Pink.Redis.Session
