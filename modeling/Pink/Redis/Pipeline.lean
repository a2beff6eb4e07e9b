import Pink.Redis.Pieces
import Pink.Redis.Served

/-! # Pipelines

A client that sends a stream of commands, none of them too long for the buffer of the connection.
`GetRequest` counts the bytes that it has read since the last read that ended where a command ends,
whatever the number of complete commands among them. As long as these stretches of the stream are
shorter than `rbuf_max_len_`, no call returns `kFullError` (`never_full`); a read that makes one as
long as this does (`full_of_count`). -/

namespace Pink.Redis.Pipeline

open Pink.Redis.Wire Pink.Redis.Parser Pink.Redis.Scan Pink.Redis.Refine Pink.Redis.Feed
open Pink.Redis.Format Pink.Redis.Callbacks Pink.Redis.Reading Pink.Redis.Reading.RedisConn
open Pink.Redis.Served Pink.Redis.Pieces Pink.Lib.Runs

/-- The bytes that arrive in a step. -/
def arriving : Op → Bytes
  | .getRequest _ (.data bytes) => bytes
  | _ => []

/-- **The stretches of the stream are short**: `n` bytes have arrived, `k` of them since the last
read that ended where a command ends, and every read leaves fewer than `max` of these. -/
def Stretches (max : ℤ) (all : List Argv) : ℕ → ℕ → List Op → Prop
  | _, _, [] => True
  | n, k, op :: ops => (k : ℤ) + (arriving op).length < max ∧
      Stretches max all (n + (arriving op).length)
        (if AtEnd all (n + (arriving op).length) then 0 else k + (arriving op).length) ops

/-- A call of an event loop, with bytes that `read` can return and memory for the buffer. -/
structure Allowed (c : RedisConn) (op : Op) : Prop where
  possible : Possible c op
  byLoop : ByLoop c op
  alloc : ∀ r, op ≠ .getRequest false r

/-- No call has returned `kFullError`. -/
def NeverFull (c : RedisConn) : Prop := .ret .fullError ∉ c.log

instance decidableStretches (max : ℤ) (all : List Argv) :
    ∀ n k ops, Decidable (Stretches max all n k ops)
  | _, _, [] => .isTrue trivial
  | n, k, op :: ops =>
    have := decidableStretches max all (n + (arriving op).length)
      (if AtEnd all (n + (arriving op).length) then 0 else k + (arriving op).length) ops
    inferInstanceAs (Decidable (_ ∧ _))

/-! ### The invariant -/

/-- The length that the parser is waiting for. -/
def blen : Req → ℤ
  | .bulks _ b _ => b
  | _ => -1

/-- The connection is open, the part `u` of the stream has not arrived, and `k` bytes are
counted. -/
structure Streams (N : ℕ) (s : RedisParserSettings) (all : List Argv) (c : RedisConn) (u : Bytes)
    (k : ℕ) : Prop where
  inv : Inv c
  last : c.lastReadPos = -1
  command : c.commandLen = k
  place : ∃ q h cmds, Able s c.redisParser q h ∧ Awaits N cmds q (h ++ u) ∧ Place all q cmds u ∧
    c.bulkLen = blen q ∧ h.length ≤ k

/-- No call has returned `kFullError`, and the connection is closed or the stream goes on. -/
structure Flows (N : ℕ) (s : RedisParserSettings) (all : List Argv) (c : RedisConn) (u : Bytes)
    (k : ℕ) : Prop where
  neverFull : NeverFull c
  streams : ¬Stuck c → Open c → Streams N s all c u k

variable {string2l : Bytes → ℕ → Option ℤ} {N : ℕ} {s : RedisParserSettings} {all : List Argv}
  {c : RedisConn} {u : Bytes} {k : ℕ}

theorem blen_lt {cmds : List Argv} {q : Req} {t : Bytes} (h : Awaits N cmds q t) :
    blen q < N := by
  cases q with
  | fresh => show (-1 : ℤ) < N; omega
  | inline => exact h.elim
  | header => show (-1 : ℤ) < N; omega
  | bulks m b v =>
    obtain ⟨a, args, -, hlt, ⟨rfl, -⟩ | ⟨rfl, -⟩⟩ := h
    · show (-1 : ℤ) < N
      omega
    · have := length_le_bulkBytes a
      rw [List.flatMap_cons, List.length_append] at hlt
      show (a.length : ℤ) < N
      omega

theorem bulkLen_of_rep {p : RedisParser} {q : Req} (h : Rep p q) : p.bulkLen = blen q := by
  cases q with
  | fresh => exact h.2.2.1
  | inline => exact h.2.2.1
  | header => exact h.2.2.1
  | bulks m b v => exact h.2.2.2.1

theorem neverFull_ret {st : ReadStatus} (h : NeverFull c) (hst : st ≠ .fullError) :
    NeverFull (c.ret st) := by
  intro hm
  rcases List.mem_append.mp hm with hm | hm
  · exact h hm
  · exact hst (Reading.Event.ret.inj (List.mem_singleton.mp hm)).symm

theorem neverFull_record {e : Reading.Event} (h : NeverFull c) (he : e ≠ .ret .fullError) :
    NeverFull (c.record e) := by
  intro hm
  rcases List.mem_append.mp hm with hm | hm
  · exact h hm
  · exact he (List.mem_singleton.mp hm).symm

/-! ### A step -/

/-- The announced length is within the limit, so the buffer can be made long enough for it. -/
theorem Streams.grow (h : Streams N s all c u k) (hN : (N : ℤ) ≤ c.rbufMaxLen - REDIS_IOBUF_LEN)
    (hmax : REDIS_IOBUF_LEN ≤ c.rbufMaxLen) : ∃ n, c.grow true = some { c with rbufLen := n } ∧
      Inv { c with rbufLen := n } ∧ c.nextReadPos = 0 ∧ 0 < c.remain ∧ c.remain ≤ n := by
  obtain ⟨q, r, cmds, -, haw, -, hbulk, -⟩ := h.place
  have hblen := blen_lt haw
  have hnext : c.nextReadPos = 0 := by rw [nextReadPos, h.last]; rfl
  have hfree : c.free = c.rbufLen := by rw [RedisConn.free, hnext, sub_zero]
  have hlen := h.inv.len
  have hmax28 : c.rbufMaxLen ≤ 2 ^ 28 := h.inv.max
  rw [REDIS_IOBUF_LEN] at hN hmax
  have htoInt : c.free < c.bulkLen → toInt c.bulkLen = c.bulkLen := fun hlt =>
    toInt_of_bounds (by omega) (by omega)
  -- no request for more than the limit
  have hnew : c.newSize ≤ c.rbufMaxLen := by
    unfold newSize
    rw [toInt_add, hnext, zero_add]
    split_ifs with h0 hlt
    · rw [REDIS_IOBUF_LEN]
      omega
    · rw [htoInt hlt, toInt_of_bounds (by omega) (by omega)]
      omega
    · omega
  obtain ⟨c', hg⟩ : ∃ c', c.grow true = some c' := by
    rw [RedisConn.grow]
    by_cases h1 : c.newSize > c.rbufLen
    · rw [if_pos h1, if_neg (not_lt.mpr hnew), if_pos rfl]
      exact ⟨_, rfl⟩
    · rw [if_neg h1]
      exact ⟨_, rfl⟩
  have hwindow := (h.inv.window_iff hg).mpr (by
    by_cases hlt : c.free < c.bulkLen
    · refine .inr (.inr ?_)
      rw [htoInt hlt, hnext]
      omega
    · exact .inr (.inl (not_lt.mp hlt)))
  obtain ⟨n, rfl, hn, -, hcase⟩ := h.inv.grow hg
  have hle := hwindow.le
  rw [hnext, zero_add] at hle
  exact ⟨n, hg, h.inv.rbufLen hn (by omega), hnext, hwindow.pos, hle⟩

/-- The parser takes a piece of the stream. -/
theorem flows_parse (hs : String2lSpec string2l) (hN : N ≤ 2 ^ 31) (hall : ∀ c ∈ all, Short N c)
    {bytes r : Bytes} {q : Req} {cmds : List Argv} (hinv : Inv c) (hnever : NeverFull c)
    (hne : bytes ≠ []) (hcommand : c.commandLen = k) (hable : Able s c.redisParser q r)
    (haw : Awaits N cmds q (r ++ (bytes ++ u))) (hbegun : Begun all q cmds u)
    (hlen : r.length + bytes.length ≤ k) (hk : k < 2 ^ 31) {n : ℕ}
    (hn : n + u.length = (stream all).length) :
    Flows N s all (c.parse string2l bytes) u (if AtEnd all n then 0 else k) := by
  have hbuf : (r ++ bytes).length = r.length + bytes.length := List.length_append
  rw [← List.append_assoc] at haw
  obtain ⟨q', r', cmds', hscan, haw', hplace⟩ := scan_awaits hs hN hall (r ++ bytes).length
    ((r ++ bytes).length + 1) haw hbegun (lt_add_one _)
  have hgoes := able_call string2l hable hne (by omega)
  have hwait := scan_wait hscan
  rw [← call] at hscan
  rw [hscan] at hgoes
  have hinv' := hinv.parse string2l bytes
  have hrec : NeverFull { c.record (.processInputBuffer c.redisParser.halfArgv.length bytes.length)
      with redisParser := c.redisParser.processInputBuffer string2l bytes } :=
    neverFull_record hnever (by simp)
  unfold parse at hinv' ⊢
  dsimp only at hinv' ⊢
  split
  next hf => exact ⟨hrec, fun hstuck => absurd (.inr hf) hstuck⟩
  next hf =>
    rw [if_neg hf] at hinv'
    unfold processed at hinv' ⊢
    dsimp only at hinv' ⊢
    rcases hgoes with ⟨hstatus, hfail⟩ | ⟨hable', hstatus⟩
    · -- a callback has failed: the connection is closed
      obtain ⟨h1, h2⟩ := parseRedisParserStatus_error hstatus
      have h3 : parseRedisParserStatus (c.redisParser.processInputBuffer string2l bytes) ≠
          .fullError := by
        unfold parseRedisParserStatus
        rw [hstatus]
        rcases hfail with hfail | hfail <;> rw [hfail] <;> decide
      rw [if_neg (by simp [h1, h2])]
      exact ⟨neverFull_ret hrec h3, fun _ hopen => absurd hopen (not_open_ret h1 h2)⟩
    · have hread := parseRedisParserStatus_wait hstatus
      have hbulk := bulkLen_of_rep hable'.rep
      have hend := hplace.atEnd_iff hn
      by_cases hq : q' = .fresh
      · rw [if_pos hq] at hread
        rw [hread, if_pos (.inl rfl), if_pos rfl] at hinv' ⊢
        rw [if_pos (hend.mpr hq)]
        refine ⟨neverFull_ret hrec (by decide), fun _ _ => ⟨hinv', rfl, rfl, ?_⟩⟩
        exact ⟨q', r', cmds', hable', haw', hplace, hbulk, by rw [hwait.2 hq]; exact le_rfl⟩
      · rw [if_neg hq] at hread
        rw [hread, if_pos (.inr rfl), if_neg (by decide)] at hinv' ⊢
        rw [if_neg (mt hend.mp hq)]
        refine ⟨neverFull_ret hrec (by decide), fun _ _ => ⟨hinv', rfl, hcommand, ?_⟩⟩
        have hle := hwait.1
        exact ⟨q', r', cmds', hable', haw', hplace, hbulk, by omega⟩

theorem flows_receive (hs : String2lSpec string2l) (hN : N ≤ 2 ^ 31)
    (hall : ∀ c ∈ all, Short N c) {bytes : Bytes} (h : Streams N s all c (bytes ++ u) k)
    (hnever : NeverFull c) (hne : bytes ≠ []) (hle : bytes.length ≤ c.rbufLen)
    (hk : (k : ℤ) + bytes.length < c.rbufMaxLen) {n : ℕ}
    (hn : n + (bytes ++ u).length = (stream all).length) :
    Flows N s all (c.receive string2l bytes) u
      (if AtEnd all (n + bytes.length) then 0 else k + bytes.length) := by
  have hmax : c.rbufMaxLen ≤ 2 ^ 28 := h.inv.max
  have hlast := h.last
  have hnext : c.nextReadPos = 0 := by rw [nextReadPos, hlast]; rfl
  have hcount := h.inv.count (List.length_pos_iff.mpr hne) (by rw [hnext, zero_add]; exact hle)
  have hsum : (c.count bytes.length).commandLen = (k + bytes.length : ℕ) := by
    show toInt (c.commandLen + bytes.length) = _
    rw [h.command, toInt_of_bounds (by omega) (by omega)]
    rfl
  obtain ⟨q, r, cmds, hable, haw, hplace, -, hr⟩ := h.place
  have hnever' : NeverFull (c.count bytes.length) := neverFull_record hnever (by simp)
  unfold receive
  dsimp only
  rw [if_neg (by rw [hsum]; show ¬c.rbufMaxLen ≤ _; push_cast; omega)]
  have hbegun : Begun all q cmds u := hplace.begun.mono (by simp)
  rw [List.length_append, ← Nat.add_assoc] at hn
  exact flows_parse hs hN hall hcount hnever' hne hsum hable haw hbegun (by omega) (by omega) hn

/-- **A step.** -/
theorem Flows.step (hs : String2lSpec string2l) (hall : ∀ c ∈ all, Short N c) {op : Op}
    (h : Flows N s all c (arriving op ++ u) k) (hop : Allowed c op)
    (hN : (N : ℤ) ≤ c.rbufMaxLen - REDIS_IOBUF_LEN) (hmax : REDIS_IOBUF_LEN ≤ c.rbufMaxLen)
    (hk : (k : ℤ) + (arriving op).length < c.rbufMaxLen) {n : ℕ}
    (hn : n + (arriving op ++ u).length = (stream all).length)
    (hkeep : AtEnd all n → k = 0) :
    Flows N s all (Reading.step string2l c op) u
      (if AtEnd all (n + (arriving op).length) then 0 else k + (arriving op).length) := by
  have hnone : ∀ {c' : RedisConn}, arriving op = [] → Flows N s all c' (arriving op ++ u) k →
      Flows N s all c' u
        (if AtEnd all (n + (arriving op).length) then 0 else k + (arriving op).length) := by
    intro c' he h'
    rw [he] at h' ⊢
    rw [List.length_nil, Nat.add_zero, Nat.add_zero]
    split_ifs with hend
    · rw [← hkeep hend]
      exact h'
    · exact h'
  unfold Reading.step
  by_cases hstuck : Stuck c
  · rw [if_pos hstuck]
    exact ⟨h.neverFull, fun hns => absurd hstuck hns⟩
  rw [if_neg hstuck]
  cases op with
  | tryResizeBuffer idletime =>
    refine hnone rfl ?_
    have hinv := fun hopen => (h.streams hstuck hopen).inv.tryResizeBuffer idletime
    dsimp only
    unfold tryResizeBuffer at hinv ⊢
    split
    next hif =>
      simp only [if_pos hif] at hinv
      refine ⟨h.neverFull, fun _ hopen => ?_⟩
      obtain ⟨-, h2, h3, h4⟩ := h.streams hstuck hopen
      exact ⟨hinv hopen, h2, h3, h4⟩
    next => exact h
  | getRequest alloc r =>
    have hst := h.streams hstuck hop.byLoop
    have hmax28 : c.rbufMaxLen ≤ 2 ^ 28 := hst.inv.max
    have halloc : alloc = true := by
      cases alloc with
      | true => rfl
      | false => exact absurd rfl (hop.alloc r)
    subst halloc
    obtain ⟨m, hg, hinv, hnext, hpos, hrem⟩ := hst.grow hN hmax
    have hst' : Streams N s all (RedisConn.record { c with rbufLen := m }
        (.read c.nextReadPos c.remain m)) (arriving (.getRequest true r) ++ u) k :=
      ⟨hinv.of_fields rfl rfl rfl rfl, hst.last, hst.command, hst.place⟩
    have hnever : NeverFull (RedisConn.record { c with rbufLen := m }
        (.read c.nextReadPos c.remain m)) := neverFull_record h.neverFull (by simp)
    dsimp only
    unfold getRequest
    rw [hg]
    dsimp only
    rcases r with bytes | _ | _ | _
    · obtain ⟨hne, hsize⟩ := hop.possible
      have hm : c.remain < 2 ^ 64 := by
        have := hinv.len_le
        dsimp only at this
        omega
      rw [sizeT_of_nonneg hpos.le hm] at hsize
      have hle : (bytes.length : ℤ) ≤ m := by omega
      dsimp only
      rw [if_neg (by
        rw [hnext]
        show ¬((0 : ℤ) < 0 ∨ 0 + (bytes.length : ℤ) > m)
        omega)]
      exact flows_receive hs (by rw [REDIS_IOBUF_LEN] at hN; omega) hall hst' hnever hne hle hk hn
    · refine hnone rfl ⟨neverFull_ret hnever (by decide), fun _ _ => ?_⟩
      exact ⟨hst'.inv.of_fields rfl rfl rfl rfl, hst'.last, hst'.command, hst'.place⟩
    · exact hnone rfl ⟨neverFull_ret hnever (by decide),
        fun _ hopen => absurd hopen (not_open_ret (by decide) (by decide))⟩
    · exact hnone rfl ⟨neverFull_ret hnever (by decide),
        fun _ hopen => absurd hopen (not_open_ret (by decide) (by decide))⟩

/-! ### Runs -/

theorem flows_run (hs : String2lSpec string2l) (hall : ∀ c ∈ all, Short N c) {max : ℤ}
    (hN : (N : ℤ) ≤ max - REDIS_IOBUF_LEN) (hmax : REDIS_IOBUF_LEN ≤ max) :
    ∀ (ops : List Op) {c : RedisConn} {u : Bytes} {n k : ℕ}, c.rbufMaxLen = max →
      Flows N s all c u k → ops.flatMap arriving <+: u → n + u.length = (stream all).length →
      (AtEnd all n → k = 0) → Guarded (step string2l) Allowed c ops →
      Stretches max all n k ops → NeverFull (run (step string2l) c ops) := by
  intro ops
  induction ops with
  | nil => exact fun _ h _ _ _ _ _ => h.neverFull
  | cons op ops ih =>
    intro c u n k hc h hu hn hkeep hg hst
    obtain ⟨t, rfl⟩ := hu
    rw [List.flatMap_cons, List.append_assoc] at h hn
    subst hc
    have hnext := Flows.step hs hall h hg.1 hN hmax hst.1 hn hkeep
    refine ih (rbufMaxLen_step string2l c op) hnext (List.prefix_append _ t) ?_ ?_ hg.2 hst.2
    · rw [List.length_append] at hn
      omega
    · exact fun hend => if_pos hend

theorem flows_accepted {max : ℤ} (hmax : max ≤ REDIS_MAX_MESSAGE) (settings : RedisParserSettings)
    (all : List Argv) : Flows N settings all (accepted max settings) (stream all) 0 := by
  refine ⟨fun hm => (nomatch hm), fun _ _ => ⟨inv_accepted hmax settings, rfl, rfl, ?_⟩⟩
  refine ⟨.fresh, [], all, able_fresh settings, rfl, ?_, rfl, le_rfl⟩
  exact ⟨List.suffix_refl all, fun _ => rfl, fun hne => absurd rfl hne⟩

/-- **Well-behaved clients are not disconnected for size** as long as the stretches of the stream
that hold no read ending with a command are shorter than the buffer may be. -/
theorem never_full (hs : String2lSpec string2l) (max : ℤ) (hmax : max ≤ REDIS_MAX_MESSAGE)
    (hmin : REDIS_IOBUF_LEN ≤ max) (settings : RedisParserSettings) (cmds : List Argv)
    (hcmds : ∀ c ∈ cmds, c ≠ [] ∧ (commandBytes c).length < max - REDIS_IOBUF_LEN)
    (ops : List Op) (hops : ops.flatMap arriving <+: stream cmds)
    (hg : Guarded (step string2l) Allowed (accepted max settings) ops)
    (hst : Stretches max cmds 0 0 ops) :
    NeverFull (run (step string2l) (accepted max settings) ops) := by
  have hN : ((max - REDIS_IOBUF_LEN).toNat : ℤ) = max - REDIS_IOBUF_LEN :=
    Int.toNat_of_nonneg (by omega)
  have hshort : ∀ c ∈ cmds, Short (max - REDIS_IOBUF_LEN).toNat c := fun c hc =>
    ⟨(hcmds c hc).1, by have := (hcmds c hc).2; omega⟩
  exact flows_run hs hshort hN.le hmin ops rfl (flows_accepted hmax settings cmds) hops
    (Nat.zero_add _) (fun _ => rfl) hg hst

instance (c : RedisConn) : ∀ op, Decidable (Allowed c op)
  | .getRequest true r =>
    decidable_of_iff (Possible c (.getRequest true r) ∧ ByLoop c (.getRequest true r))
      ⟨fun h => ⟨h.1, h.2, by simp⟩, fun h => ⟨h.1, h.2⟩⟩
  | .getRequest false r => .isFalse fun h => h.alloc r rfl
  | .tryResizeBuffer t => .isTrue ⟨trivial, trivial, by simp⟩

/-- Two commands in two reads, the first of which ends inside the second command. -/
theorem never_full_ping : NeverFull (run (step Wire.string2l)
    (accepted REDIS_MAX_MESSAGE okSettings)
    [.getRequest true (.data (bytes "*1\r\n$4\r\nPING\r\n*1\r\n$4\r\nPI")),
      .tryResizeBuffer 3, .getRequest true (.data (bytes "NG\r\n"))]) :=
  never_full string2l_spec REDIS_MAX_MESSAGE le_rfl (by decide) okSettings
    [[bytes "PING"], [bytes "PING"]] (by decide +kernel) _
    ⟨[], by decide +kernel⟩ (by decide +kernel) (by decide +kernel)

/-! ### Sharpness -/

/-- **A read that makes a stretch too long ends the connection.** -/
theorem full_of_count {bytes : Bytes} (hinv : Inv c) (hstuck : ¬Stuck c) (hlast : c.lastReadPos = -1)
    (hfree : c.rbufLen ≠ 0) (hbulk : c.bulkLen ≤ c.rbufLen) (hle : bytes.length ≤ c.rbufLen)
    (hcommand : 0 ≤ c.commandLen) (hlt : c.commandLen < c.rbufMaxLen)
    (hlong : c.rbufMaxLen ≤ c.commandLen + bytes.length) :
    ¬NeverFull (Reading.step string2l c (.getRequest true (.data bytes))) := by
  have hmax : c.rbufMaxLen ≤ 2 ^ 28 := hinv.max
  have hlen := hinv.len_le
  have hnext : c.nextReadPos = 0 := by rw [nextReadPos, hlast]; rfl
  have hf : c.free = c.rbufLen := by rw [RedisConn.free, hnext, sub_zero]
  have hnew : c.newSize = 0 := by
    rw [newSize, hf, if_neg hfree, if_neg (not_lt.mpr hbulk)]
  have hg : c.grow true = some c := by
    rw [RedisConn.grow, hnew, if_neg (not_lt.mpr hinv.len)]
  have hsum : toInt (c.commandLen + bytes.length) = c.commandLen + bytes.length :=
    toInt_of_bounds (by omega) (by omega)
  rw [NeverFull, not_not, Reading.step, if_neg hstuck]
  show _ ∈ (c.getRequest string2l true (.data bytes)).log
  rw [getRequest, hg]
  dsimp only
  rw [if_neg (by rw [hnext]; show ¬((0 : ℤ) < 0 ∨ 0 + (bytes.length : ℤ) > c.rbufLen); omega),
    receive, if_pos (by
      show toInt (c.commandLen + bytes.length) ≥ c.rbufMaxLen
      rw [hsum]
      exact hlong)]
  exact List.mem_append_right _ (List.mem_singleton_self _)

/-- Many commands of eleven bytes. -/
def pipeline : List Argv := List.replicate 1492 [bytes "a"]

/-- The first read: a command and a byte. -/
def firstRead : Bytes := bytes "*1\r\n$1\r\na\r\n*"

/-- A read that fills the buffer. -/
def fullRead : Bytes := ((stream pipeline).drop 12).take 16384

/-- The connection after the first read. -/
def begun : RedisConn := Reading.step Wire.string2l (accepted 16396 okSettings)
  (.getRequest true (.data firstRead))

theorem commandBytes_a : commandBytes [bytes "a"] = bytes "*1\r\n$1\r\na\r\n" := by decide +kernel

theorem length_replicate (n : ℕ) : (stream (List.replicate n [bytes "a"])).length = n * 11 := by
  induction n with
  | zero => rfl
  | succ n ih =>
    have hlen : (commandBytes [bytes "a"]).length = 11 := by rw [commandBytes_a]; rfl
    rw [List.replicate_succ, stream, List.flatMap_cons, List.length_append, hlen]
    rw [stream] at ih
    omega

theorem length_fullRead : fullRead.length = 16384 := by
  rw [fullRead, List.length_take, List.length_drop, pipeline, length_replicate]
  rfl

theorem firstRead_eq : firstRead = (stream pipeline).take 12 := by
  have hcons : stream pipeline = commandBytes [bytes "a"] ++ (commandBytes [bytes "a"] ++
      stream (List.replicate 1490 [bytes "a"])) := rfl
  rw [hcons, commandBytes_a]
  rfl

/-- Commands of eleven bytes, and two reads that both end inside a command: the second is answered
with `kFullError` although the limit leaves room for twelve bytes behind a full read. -/
theorem not_never_full :
    (∀ c ∈ pipeline, c ≠ [] ∧ (commandBytes c).length < 16396 - REDIS_IOBUF_LEN) ∧
    [Op.getRequest true (.data firstRead), .getRequest true (.data fullRead)].flatMap arriving <+:
      stream pipeline ∧
    Guarded (Reading.step Wire.string2l) Allowed (accepted 16396 okSettings)
      [.getRequest true (.data firstRead), .getRequest true (.data fullRead)] ∧
    ¬NeverFull (run (Reading.step Wire.string2l) (accepted 16396 okSettings)
      [.getRequest true (.data firstRead), .getRequest true (.data fullRead)]) := by
  have hlen := length_fullRead
  have hpossible : Possible (accepted 16396 okSettings) (.getRequest true (.data firstRead)) := by
    decide +kernel
  have hinv : Reading.Inv begun :=
    (inv_accepted (by decide) okSettings).step Wire.string2l hpossible
  have hne : fullRead ≠ [] := by
    intro h
    rw [h] at hlen
    cases hlen
  refine ⟨fun c hc => ?_, ?_, ⟨⟨hpossible, .inl rfl, by simp⟩, ⟨⟨hne, ?_⟩, ?_, by simp⟩, trivial⟩, ?_⟩
  · rw [List.eq_of_mem_replicate hc, commandBytes_a]
    exact ⟨List.cons_ne_nil _ _, by decide +kernel⟩
  · show firstRead ++ (fullRead ++ []) <+: _
    rw [List.append_nil, firstRead_eq, fullRead]
    refine ⟨((stream pipeline).drop 12).drop 16384, ?_⟩
    rw [List.append_assoc, List.take_append_drop, List.take_append_drop]
  · rw [hlen]
    show 16384 ≤ sizeT begun.remain
    decide +kernel
  · show Open begun
    decide +kernel
  · refine full_of_count (c := begun) hinv (by decide +kernel) (by decide +kernel)
      (by decide +kernel) (by decide +kernel) ?_ (by decide +kernel) (by decide +kernel) ?_
    · rw [hlen]
      decide +kernel
    · rw [hlen]
      decide +kernel

end Pink.Redis.Pipeline
