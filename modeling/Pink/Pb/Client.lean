import Pink.Pb.Conn

/-! # A protobuf client

`PbCli::Recv`, which reads a header and then as many bytes as it announces, both by
`PinkCli::RecvRaw`. The buffer has `kProtoMaxMessage` bytes, and the code does not compare the
announced length with it: `asks_le_iff`. -/

namespace Pink.Pb.Client

open Pink.Redis.Wire Pink.Pb.Conn

/-- The `Status` that a call returns. -/
inductive Status
  | ok | timeout | ioError | endFile | corruption
  deriving DecidableEq, Repr

/-- How a call of `read` ends: with `k + 1` of the bytes that the peer has sent, if there are so many
and so many were asked for, or with 0 or -1. -/
inductive RawRecv
  | data (k : ℕ)
  | eintr
  | eagain
  | failed
  | closed
  deriving DecidableEq, Repr

/-- The buffer of a client, as far as it is written, the bytes that the peer has sent and that have
not been read, and the numbers of bytes that `RecvRaw` has been asked for. -/
structure PbCli where
  rbuf : Bytes := []
  input : Bytes := []
  asks : List ℕ := []
  deriving DecidableEq, Repr

/-- The loop of `RecvRaw`, with the reads that are left; the receive timeout passes when there are
none or when the peer has sent nothing. -/
def recvLoop : List RawRecv → ℕ → ℕ → PbCli → PbCli × List RawRecv × Status × ℕ
  | rs, 0, pos, cli => (cli, rs, .ok, pos)
  | [], _ + 1, pos, cli => (cli, [], .timeout, pos)
  | .eintr :: rs, nleft + 1, pos, cli => recvLoop rs (nleft + 1) pos cli
  | .eagain :: rs, _ + 1, pos, cli => (cli, rs, .timeout, pos)
  | .failed :: rs, _ + 1, pos, cli => (cli, rs, .ioError, pos)
  | .closed :: rs, _ + 1, pos, cli => (cli, rs, .endFile, pos)
  | .data k :: rs, nleft + 1, pos, cli =>
    if cli.input = [] then (cli, rs, .timeout, pos)
    else
      let bs := cli.input.take (min (k + 1) (nleft + 1))
      recvLoop rs (nleft + 1 - bs.length) (pos + bs.length)
        { cli with rbuf := store cli.rbuf pos bs, input := cli.input.drop bs.length }

/-- `PinkCli::RecvRaw(rbuf_, &count)`. -/
def recvRaw (rs : List RawRecv) (count : ℕ) (cli : PbCli) : PbCli × List RawRecv × Status × ℕ :=
  recvLoop rs count 0 { cli with asks := cli.asks ++ [count] }

/-- The part of `PbCli::Recv` behind the header; `parse` is `ParseFromArray` of the message. -/
def recvPacket (parse : Bytes → Bool) (rs : List RawRecv) (packetLen : ℕ) (cli : PbCli) :
    PbCli × Status :=
  match recvRaw rs packetLen cli with
  | (cli, _, .ok, packetLen) =>
    (cli, if parse (cli.rbuf.take packetLen) then .ok else .corruption)
  | (cli, _, s, _) => (cli, s)

/-- `PbCli::Recv`. -/
def recv (parse : Bytes → Bool) (rs : List RawRecv) (cli : PbCli) : PbCli × Status :=
  match recvRaw rs COMMAND_HEADER_LENGTH cli with
  | (cli, rs, .ok, _) => recvPacket parse rs (ntohl cli.rbuf) cli
  | (cli, _, s, _) => (cli, s)

/-! ### What is asked for -/

theorem recvLoop_asks (rs : List RawRecv) (nleft pos : ℕ) (cli : PbCli) :
    (recvLoop rs nleft pos cli).1.asks = cli.asks := by
  induction rs, nleft, pos, cli using recvLoop.induct with
  | case1 rs pos cli => simp [recvLoop]
  | case2 n pos cli => simp [recvLoop]
  | case3 rs n pos cli ih => simpa [recvLoop] using ih
  | case4 rs n pos cli => simp [recvLoop]
  | case5 rs n pos cli => simp [recvLoop]
  | case6 rs n pos cli => simp [recvLoop]
  | case7 k rs n pos cli h => simp [recvLoop, h]
  | case8 k rs n pos cli h bs ih =>
    rw [recvLoop, if_neg h]
    exact ih

/-- A `RecvRaw` that returns `OK` has stored the first bytes of the input, all it was asked for. -/
theorem recvLoop_ok (rs : List RawRecv) (nleft pos : ℕ) (cli : PbCli)
    (hpos : pos ≤ cli.rbuf.length) (hok : (recvLoop rs nleft pos cli).2.2.1 = .ok) :
    nleft ≤ cli.input.length ∧
      (recvLoop rs nleft pos cli).1.rbuf.take (pos + nleft) =
        cli.rbuf.take pos ++ cli.input.take nleft := by
  induction rs, nleft, pos, cli using recvLoop.induct with
  | case1 rs pos cli => simp [recvLoop]
  | case2 n pos cli => simp [recvLoop] at hok
  | case3 rs n pos cli ih =>
    rw [recvLoop] at hok ⊢
    exact ih hpos hok
  | case4 rs n pos cli => simp [recvLoop] at hok
  | case5 rs n pos cli => simp [recvLoop] at hok
  | case6 rs n pos cli => simp [recvLoop] at hok
  | case7 k rs n pos cli h => simp [recvLoop, h] at hok
  | case8 k rs n pos cli h bs ih =>
    rw [recvLoop, if_neg h] at hok ⊢
    obtain ⟨hle, htake⟩ := ih (le_length_store hpos) hok
    have hlen : bs.length ≤ n + 1 ∧ bs.length ≤ cli.input.length := by
      simp only [bs, List.length_take]
      omega
    have hbs : bs = cli.input.take bs.length := by
      simp only [bs, List.length_take, ← List.take_take, List.take_length]
    rw [List.length_drop] at hle
    refine ⟨by omega, ?_⟩
    have hsplit : cli.input.take (n + 1) =
        bs ++ (cli.input.drop bs.length).take (n + 1 - bs.length) := by
      conv_lhs => rw [show n + 1 = bs.length + (n + 1 - bs.length) by omega, List.take_add, ← hbs]
    rw [hsplit, ← List.append_assoc, ← take_store hpos]
    rw [show pos + (n + 1) = pos + bs.length + (n + 1 - bs.length) by omega]
    exact htake

theorem recvPacket_asks (parse : Bytes → Bool) (rs : List RawRecv) (packetLen : ℕ) (cli : PbCli) :
    (recvPacket parse rs packetLen cli).1.asks = cli.asks ++ [packetLen] := by
  have hasks := recvLoop_asks rs packetLen 0 { cli with asks := cli.asks ++ [packetLen] }
  unfold recvPacket recvRaw
  generalize recvLoop rs packetLen 0 { cli with asks := cli.asks ++ [packetLen] } = r at hasks
  obtain ⟨cli', rs', s, n⟩ := r
  cases s <;> exact hasks

/-- What `Recv` asks for: the header, and the length that the header announces. -/
theorem recv_asks {h : ℕ} (hh : h < 2 ^ 32) (parse : Bytes → Bool) (rs : List RawRecv)
    (rbuf rest : Bytes) :
    (recv parse rs { rbuf := rbuf, input := htonl h ++ rest }).1.asks = [4] ∨
      (recv parse rs { rbuf := rbuf, input := htonl h ++ rest }).1.asks = [4, h] := by
  have hasks := recvLoop_asks rs 4 0 { rbuf := rbuf, input := htonl h ++ rest, asks := [4] }
  have hbytes := recvLoop_ok rs 4 0 { rbuf := rbuf, input := htonl h ++ rest, asks := [4] }
    (Nat.zero_le _)
  simp only [recv, recvRaw, COMMAND_HEADER_LENGTH, List.nil_append]
  generalize recvLoop rs 4 0 { rbuf := rbuf, input := htonl h ++ rest, asks := [4] } = r
    at hasks hbytes
  obtain ⟨cli, rs', s, n⟩ := r
  dsimp only at hasks hbytes
  cases s with
  | ok =>
    right
    have htake := (hbytes rfl).2
    rw [Nat.zero_add, List.take_zero, List.nil_append, ← length_htonl h, List.take_left] at htake
    have hn : ntohl cli.rbuf = h := by
      rw [← List.take_append_drop (htonl h).length cli.rbuf, htake, ntohl_htonl hh]
    dsimp only
    rw [hn, recvPacket_asks, hasks]
    rfl
  | timeout => exact .inl hasks
  | ioError => exact .inl hasks
  | endFile => exact .inl hasks
  | corruption => exact .inl hasks

/-- A header that arrives in one piece is followed by what it announces. -/
theorem recv_asks_header (a b c d : UInt8) :
    ntohl [a, b, c, d] ∈
      (recv (fun _ => true) [.data 3] { input := [a, b, c, d] ++ [] }).1.asks := by
  have hheader : recvRaw [.data 3] COMMAND_HEADER_LENGTH { input := [a, b, c, d] ++ [] } =
      ({ rbuf := [a, b, c, d], asks := [4] }, [], .ok, 4) := by
    simp [recvRaw, recvLoop, store, COMMAND_HEADER_LENGTH]
  rw [recv, hheader]
  dsimp only
  rw [recvPacket_asks]
  exact List.mem_append_right _ List.mem_cons_self

/-- **The client keeps to its buffer exactly for the headers that announce no more.** -/
theorem asks_le_iff {h : ℕ} (hh : h < 2 ^ 32) :
    (∀ parse rs rbuf rest,
      ∀ n ∈ (recv parse rs { rbuf := rbuf, input := htonl h ++ rest }).1.asks,
        n ≤ kProtoMaxMessage) ↔ h ≤ kProtoMaxMessage := by
  constructor
  · intro hall
    have hn : ntohl (htonl h) = h := by
      have := ntohl_htonl hh []
      rwa [List.append_nil] at this
    have hle := hall (fun _ => true) [.data 3] [] [] (ntohl (htonl h)) (recv_asks_header _ _ _ _)
    rwa [hn] at hle
  · intro hle parse rs rbuf rest n hn
    have h4 : 4 ≤ kProtoMaxMessage := by unfold kProtoMaxMessage; omega
    rcases recv_asks hh parse rs rbuf rest with heq | heq
    · rw [heq, List.mem_singleton] at hn
      omega
    · rw [heq] at hn
      simp only [List.mem_cons, List.not_mem_nil, or_false] at hn
      omega

end Pink.Pb.Client
