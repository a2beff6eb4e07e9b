import Pink.Lib.Runs
import Pink.Redis.Callbacks

/-! # The read buffer of a connection

`GetRequest` and `TryResizeBuffer` of `RedisConn`. A call of `GetRequest` makes the buffer longer if
need be, reads behind what it has read before, and passes the new bytes to the parser. The length of
the argument that the parser is waiting for, `bulk_len_`, is a `long` that the client chooses; the
`int`s computed from it are converted as the source converts them.

What `read` returns, whether `realloc` succeeds and how long the connection has been idle are part
of a step. Bytes that do not fit in the buffer are an overrun, after which nothing happens any more.
The log is not in the source: it records every `read`, every call of the parser, and what
`GetRequest` returns. `realloc` in `TryResizeBuffer` only makes the buffer shorter, and succeeds.

Every read stays within the buffer exactly when no announced length is cut by the conversion to
`int` (`within_iff`). -/

namespace Pink.Redis.Reading

open Pink.Redis.Wire Pink.Redis.Parser Pink.Lib.Runs

/-- Conversion of a `long` to `int`. -/
@[irreducible] def toInt (v : ℤ) : ℤ := Int.bmod v (2 ^ 32)

def REDIS_MAX_MESSAGE : ℤ := 2 ^ 28
def REDIS_MBULK_BIG_ARG : ℤ := 1024 * 32

inductive ReadStatus
  | readHalf | readAll | readError | readClose | fullError | parseError | dealError | ok
  deriving DecidableEq, Repr

/-- What `read` returns: a positive number with the bytes, `-1` with `EAGAIN` or another `errno`,
or `0`. -/
inductive ReadResult
  | data (bytes : Bytes)
  | eagain | error | closed
  deriving DecidableEq, Repr

inductive Event
  /-- `read(fd(), rbuf_ + next_read_pos, remain)`, with `rbuf_len_`. -/
  | read (nextReadPos remain rbufLen : ℤ)
  /-- `command_len_ += nread`. -/
  | count (commandLen nread : ℤ)
  /-- `ProcessInputBuffer` with `length` bytes, and the size of `half_argv_`. -/
  | processInputBuffer (half length : ℕ)
  | ret (status : ReadStatus)
  deriving DecidableEq, Repr

structure RedisConn where
  rbufLen : ℤ := 0
  rbufMaxLen : ℤ
  msgPeak : ℤ := 0
  commandLen : ℤ := 0
  lastReadPos : ℤ := -1
  bulkLen : ℤ := -1
  redisParser : RedisParser
  /-- What the last call of `GetRequest` returned. -/
  status : Option ReadStatus := none
  overrun : Bool := false
  log : List Event := []

namespace RedisConn

def record (c : RedisConn) (e : Event) : RedisConn := { c with log := c.log ++ [e] }

def ret (c : RedisConn) (s : ReadStatus) : RedisConn := { c.record (.ret s) with status := some s }

def parseRedisParserStatus (p : RedisParser) : ReadStatus :=
  match p.statusCode with
  | .initDone => .ok
  | .half => .readHalf
  | .done => .readAll
  | .error =>
    match p.errorCode with
    | .fullError => .fullError
    | .protoError => .parseError
    | .dealError => .dealError
    | _ => .readError
  | .none => .readError

def nextReadPos (c : RedisConn) : ℤ := c.lastReadPos + 1

/-- The free part of the buffer. -/
def free (c : RedisConn) : ℤ := c.rbufLen - c.nextReadPos

/-- `remain`, as it is passed to `read`. -/
def remain (c : RedisConn) : ℤ :=
  if c.free = 0 then c.free + REDIS_IOBUF_LEN
  else if c.free < c.bulkLen then toInt c.bulkLen
  else c.free

def newSize (c : RedisConn) : ℤ :=
  if c.free = 0 then c.rbufLen + REDIS_IOBUF_LEN
  else if c.free < c.bulkLen then toInt (c.nextReadPos + c.bulkLen)
  else 0

/-- `if (new_size > rbuf_len_) { ... }`: `none` if `GetRequest` returns `kFullError`. -/
def grow (c : RedisConn) (alloc : Bool) : Option RedisConn :=
  if c.newSize > c.rbufLen then
    if c.newSize > c.rbufMaxLen then none
    else if alloc then
      some { c with rbufLen := min c.rbufMaxLen (max ((c.rbufLen * 3).tdiv 2) c.newSize) }
    else none
  else some c

variable (string2l : Bytes → ℕ → Option ℤ)

/-- The lines behind `ProcessInputBuffer`. -/
def processed (c : RedisConn) : RedisConn :=
  let s := parseRedisParserStatus c.redisParser
  if s = .readAll ∨ s = .readHalf then
    { c with
      commandLen := if s = ReadStatus.readAll then 0 else c.commandLen
      lastReadPos := -1
      bulkLen := c.redisParser.bulkLen }.ret s
  else c.ret s

/-- Count the bytes read. -/
def count (c : RedisConn) (nread : ℕ) : RedisConn :=
  { c.record (.count c.commandLen nread) with
    lastReadPos := toInt (c.lastReadPos + nread)
    msgPeak := toInt (c.lastReadPos + nread)
    commandLen := toInt (c.commandLen + nread) }

/-- Pass the bytes read to the parser; a parser with a fault does not come back. -/
def parse (c : RedisConn) (bytes : Bytes) : RedisConn :=
  let p := c.redisParser.processInputBuffer string2l bytes
  let c := { c.record (.processInputBuffer c.redisParser.halfArgv.length bytes.length) with
    redisParser := p }
  if p.fault ≠ none then c else c.processed

/-- The lines behind a `read` of a positive number of bytes. -/
def receive (c : RedisConn) (bytes : Bytes) : RedisConn :=
  let c := c.count bytes.length
  if c.commandLen ≥ c.rbufMaxLen then c.ret .fullError else c.parse string2l bytes

def getRequest (c : RedisConn) (alloc : Bool) (r : ReadResult) : RedisConn :=
  match c.grow alloc with
  | none => c.ret .fullError
  | some c' =>
    let c' := c'.record (.read c.nextReadPos c.remain c'.rbufLen)
    match r with
    | .eagain => c'.ret .readHalf
    | .error => c'.ret .readError
    | .closed => c'.ret .readClose
    | .data bytes =>
      if c.nextReadPos < 0 ∨ c.nextReadPos + bytes.length > c'.rbufLen then
        { c' with overrun := true }
      else c'.receive string2l bytes

def tryResizeBuffer (c : RedisConn) (idletime : ℤ) : RedisConn :=
  if c.rbufLen > REDIS_MBULK_BIG_ARG ∧
      (c.rbufLen.tdiv (c.msgPeak + 1) > 2 ∨ idletime > 2) then
    let newSize := (c.lastReadPos + REDIS_IOBUF_LEN).tdiv REDIS_IOBUF_LEN * REDIS_IOBUF_LEN
    { c with rbufLen := if newSize < c.rbufLen then newSize else c.rbufLen, msgPeak := 0 }
  else c

end RedisConn

open RedisConn

/-! ### Runs -/

inductive Op
  | getRequest (alloc : Bool) (r : ReadResult)
  | tryResizeBuffer (idletime : ℤ)
  deriving DecidableEq, Repr

/-- Nothing happens any more. -/
def Stuck (c : RedisConn) : Prop := c.overrun = true ∨ c.redisParser.fault ≠ none

instance (c : RedisConn) : Decidable (Stuck c) := instDecidableOr

variable (string2l : Bytes → ℕ → Option ℤ)

def step (c : RedisConn) (op : Op) : RedisConn :=
  if Stuck c then c
  else
    match op with
    | .getRequest alloc r => c.getRequest string2l alloc r
    | .tryResizeBuffer idletime => c.tryResizeBuffer idletime

/-- A connection that has just been accepted. -/
def accepted (rbufMaxLen : ℤ) (settings : RedisParserSettings) : RedisConn :=
  { rbufMaxLen := rbufMaxLen, redisParser := freshRequest settings }

/-- `read` returns at most as many bytes as it was asked for. -/
def Possible (c : RedisConn) : Op → Prop
  | .getRequest _ (.data bytes) => bytes ≠ [] ∧ bytes.length ≤ sizeT c.remain
  | _ => True

/-- A read within the buffer. -/
structure InWindow (max nextReadPos remain rbufLen : ℤ) : Prop where
  pos : 0 < remain
  start : 0 ≤ nextReadPos
  le : nextReadPos + remain ≤ rbufLen
  max : rbufLen ≤ max

def ReadOk (max : ℤ) : Event → Prop
  | .read nextReadPos remain rbufLen => InWindow max nextReadPos remain rbufLen
  | _ => True

/-- **Every read has been within the buffer**, and `TryResizeBuffer` may divide by
`msg_peak_ + 1`. -/
structure Within (c : RedisConn) : Prop where
  reads : ∀ e ∈ c.log, ReadOk c.rbufMaxLen e
  divisor : 0 < c.msgPeak + 1

/-- The announced length, converted to `int`, is positive, and the end of the argument is an `int`,
unless the length plays no part. -/
def Announced (c : RedisConn) : Op → Prop
  | .getRequest _ _ => Stuck c ∨ c.free = 0 ∨ c.bulkLen ≤ c.free ∨
      (0 < toInt c.bulkLen ∧ c.nextReadPos + toInt c.bulkLen < 2 ^ 31)
  | .tryResizeBuffer _ => True

instance (c : RedisConn) : ∀ op, Decidable (Possible c op)
  | .getRequest _ (.data _) => instDecidableAnd
  | .getRequest _ .eagain => .isTrue trivial
  | .getRequest _ .error => .isTrue trivial
  | .getRequest _ .closed => .isTrue trivial
  | .tryResizeBuffer _ => .isTrue trivial

instance (c : RedisConn) : ∀ op, Decidable (Announced c op)
  | .getRequest _ _ => inferInstanceAs (Decidable (_ ∨ _ ∨ _ ∨ (_ ∧ _)))
  | .tryResizeBuffer _ => .isTrue trivial

/-! ### The invariant -/

theorem toInt_of_bounds {v : ℤ} (h : -2 ^ 31 ≤ v) (h' : v < 2 ^ 31) : toInt v = v := by
  unfold toInt
  exact Int.bmod_eq_of_le (by omega) (by omega)

theorem toInt_bounds (v : ℤ) : -2 ^ 31 ≤ toInt v ∧ toInt v < 2 ^ 31 := by
  unfold toInt
  have h1 := Int.le_bmod (x := v) (m := 2 ^ 32) (by norm_num)
  have h2 := Int.bmod_lt (x := v) (m := 2 ^ 32) (by norm_num)
  omega

theorem toInt_add (a b : ℤ) : toInt (a + b) = toInt (a + toInt b) := by
  unfold toInt
  rw [Int.add_bmod_bmod]

theorem toInt_of_ge {v : ℤ} (h : 2 ^ 31 ≤ v) (h' : v < 2 ^ 32 + 2 ^ 31) : toInt v = v - 2 ^ 32 := by
  have hsub : toInt v = toInt (v - 2 ^ 32) := by
    unfold toInt
    exact (Int.sub_bmod_right v (2 ^ 32)).symm
  rw [hsub, toInt_of_bounds (by omega) (by omega)]

/-- The size of the buffer and the positions in it. -/
structure Inv (c : RedisConn) : Prop where
  max : c.rbufMaxLen ≤ REDIS_MAX_MESSAGE
  len : 0 ≤ c.rbufLen
  len_max : c.rbufLen ≤ c.rbufMaxLen ∨ c.rbufLen = 0
  last : -1 ≤ c.lastReadPos
  last_le : c.lastReadPos + 1 ≤ c.rbufLen
  peak : 0 ≤ c.msgPeak

section Inv
variable {c : RedisConn} (h : Inv c)
include h

theorem Inv.len_le : c.rbufLen ≤ 2 ^ 28 := by
  have := h.max
  have := h.len_max
  unfold REDIS_MAX_MESSAGE at *
  omega

theorem Inv.tryResizeBuffer (idletime : ℤ) : Inv (c.tryResizeBuffer idletime) := by
  obtain ⟨h1, h2, h3, h4, h5, h6⟩ := h
  unfold RedisConn.tryResizeBuffer
  by_cases hc : c.rbufLen > REDIS_MBULK_BIG_ARG ∧
      (c.rbufLen.tdiv (c.msgPeak + 1) > 2 ∨ idletime > 2)
  swap
  · rw [if_neg hc]
    exact ⟨h1, h2, h3, h4, h5, h6⟩
  rw [if_pos hc]
  have hpos : (0 : ℤ) ≤ c.lastReadPos + REDIS_IOBUF_LEN := by unfold REDIS_IOBUF_LEN; omega
  have hdiv : (c.lastReadPos + REDIS_IOBUF_LEN).tdiv REDIS_IOBUF_LEN =
      (c.lastReadPos + REDIS_IOBUF_LEN) / REDIS_IOBUF_LEN := Int.tdiv_eq_ediv_of_nonneg hpos
  have hle : c.lastReadPos + 1 ≤
      (c.lastReadPos + REDIS_IOBUF_LEN) / REDIS_IOBUF_LEN * REDIS_IOBUF_LEN := by
    unfold REDIS_IOBUF_LEN
    omega
  have h0 : 0 ≤ (c.lastReadPos + REDIS_IOBUF_LEN) / REDIS_IOBUF_LEN * REDIS_IOBUF_LEN := by omega
  dsimp only
  rw [hdiv]
  refine ⟨h1, ?_, ?_, h4, ?_, le_rfl⟩ <;> dsimp only <;> split_ifs <;> omega

/-- The buffer after it has been made longer. -/
theorem Inv.grow {c' : RedisConn} {alloc : Bool} (hg : c.grow alloc = some c') :
    ∃ n, c' = { c with rbufLen := n } ∧ c.rbufLen ≤ n ∧ c.newSize ≤ n ∧
      (c.newSize ≤ c.rbufLen ∧ n = c.rbufLen ∨ c.rbufLen < n ∧ n ≤ c.rbufMaxLen) := by
  have hle := h.len_le
  have := h.max
  unfold REDIS_MAX_MESSAGE at this
  unfold RedisConn.grow at hg
  split_ifs at hg with h1 h2 h3
  · obtain rfl := Option.some.inj hg
    have hdiv : (c.rbufLen * 3).tdiv 2 = c.rbufLen * 3 / 2 :=
      Int.tdiv_eq_ediv_of_nonneg (by have := h.len; omega)
    refine ⟨_, rfl, ?_, ?_, .inr ⟨?_, ?_⟩⟩ <;> rw [hdiv] <;> omega
  · obtain rfl := Option.some.inj hg
    exact ⟨_, rfl, le_rfl, not_lt.mp h1, .inl ⟨not_lt.mp h1, rfl⟩⟩

theorem Inv.rbufLen {n : ℤ} (hn : c.rbufLen ≤ n) (hmax : n = c.rbufLen ∨ n ≤ c.rbufMaxLen) :
    Inv { c with rbufLen := n } := by
  obtain ⟨h1, h2, h3, h4, h5, h6⟩ := h
  refine ⟨h1, ?_, ?_, h4, ?_, h6⟩ <;> dsimp only <;> omega

/-- The positions after a read that fits in the buffer. -/
theorem Inv.count {nread : ℕ} (hpos : 0 < nread) (hle : c.nextReadPos + nread ≤ c.rbufLen) :
    Inv (c.count nread) := by
  have hlen := h.len_le
  obtain ⟨h1, h2, h3, h4, h5, h6⟩ := h
  unfold nextReadPos at hle
  have htoInt : toInt (c.lastReadPos + nread) = c.lastReadPos + nread :=
    toInt_of_bounds (by omega) (by omega)
  unfold RedisConn.count
  rw [htoInt]
  refine ⟨h1, h2, h3, ?_, ?_, ?_⟩ <;> dsimp only [RedisConn.record] <;> omega

end Inv

/-! ### The log -/

/-- The reads so far have been within the buffer. -/
def ReadsOk (c : RedisConn) : Prop := ∀ e ∈ c.log, ReadOk c.rbufMaxLen e

/-- What keeps the limit and adds no read to the log. -/
def Quiet (c c' : RedisConn) : Prop := c'.rbufMaxLen = c.rbufMaxLen ∧ (ReadsOk c' ↔ ReadsOk c)

section Quiet
variable {c c' c'' : RedisConn}

theorem Quiet.trans (h : Quiet c c') (h' : Quiet c' c'') : Quiet c c'' :=
  ⟨h'.1.trans h.1, h'.2.trans h.2⟩

theorem quiet_of_log (hm : c'.rbufMaxLen = c.rbufMaxLen) (hl : c'.log = c.log) : Quiet c c' :=
  ⟨hm, by rw [ReadsOk, ReadsOk, hl, hm]⟩

theorem readsOk_record (c : RedisConn) (e : Event) :
    ReadsOk (c.record e) ↔ ReadsOk c ∧ ReadOk c.rbufMaxLen e := by
  simp [ReadsOk, RedisConn.record, or_imp, forall_and]

theorem quiet_record (c : RedisConn) {e : Event} (he : ReadOk c.rbufMaxLen e) :
    Quiet c (c.record e) :=
  ⟨rfl, (readsOk_record c e).trans (and_iff_left he)⟩

theorem quiet_ret (c : RedisConn) (s : ReadStatus) : Quiet c (c.ret s) :=
  (quiet_record c (e := .ret s) trivial).trans (quiet_of_log rfl rfl)

theorem quiet_count (c : RedisConn) (nread : ℕ) : Quiet c (c.count nread) :=
  (quiet_record c (e := .count c.commandLen nread) trivial).trans (quiet_of_log rfl rfl)

theorem quiet_tryResizeBuffer (c : RedisConn) (idletime : ℤ) :
    Quiet c (c.tryResizeBuffer idletime) := by
  unfold RedisConn.tryResizeBuffer
  split_ifs <;> exact quiet_of_log rfl rfl

theorem quiet_processed (c : RedisConn) : Quiet c c.processed := by
  unfold processed
  dsimp only
  split
  · exact Quiet.trans (quiet_of_log rfl rfl) (quiet_ret _ _)
  · exact quiet_ret c _

theorem quiet_parse (c : RedisConn) (bytes : Bytes) : Quiet c (c.parse string2l bytes) := by
  have hrec : Quiet c { c.record (.processInputBuffer c.redisParser.halfArgv.length bytes.length)
      with redisParser := c.redisParser.processInputBuffer string2l bytes } :=
    (quiet_record c (e := .processInputBuffer _ _) trivial).trans (quiet_of_log rfl rfl)
  unfold parse
  dsimp only
  split
  · exact hrec
  · exact hrec.trans (quiet_processed _)

theorem quiet_receive (c : RedisConn) (bytes : Bytes) : Quiet c (c.receive string2l bytes) := by
  unfold receive
  dsimp only
  split
  · exact (quiet_count c _).trans (quiet_ret _ _)
  · exact (quiet_count c _).trans (quiet_parse string2l _ _)

theorem rbufMaxLen_getRequest (alloc : Bool) (r : ReadResult) :
    (c.getRequest string2l alloc r).rbufMaxLen = c.rbufMaxLen := by
  unfold getRequest
  rcases hg : c.grow alloc with _ | c'
  · rfl
  have hmax : c'.rbufMaxLen = c.rbufMaxLen := by
    unfold grow at hg
    split_ifs at hg <;> cases hg <;> rfl
  dsimp only
  rcases r with bytes | _ | _ | _
  · dsimp only
    split
    · exact hmax
    · exact (quiet_receive string2l _ bytes).1.trans hmax
  · exact hmax
  · exact hmax
  · exact hmax

/-- The limit stays what it is. -/
theorem rbufMaxLen_step (c : RedisConn) (op : Op) :
    (step string2l c op).rbufMaxLen = c.rbufMaxLen := by
  unfold step
  split
  · rfl
  · cases op with
    | getRequest alloc r => exact rbufMaxLen_getRequest string2l alloc r
    | tryResizeBuffer idletime => exact (quiet_tryResizeBuffer c idletime).1

end Quiet

/-! ### One step -/

section Step
variable {c : RedisConn} (h : Inv c)
include h

theorem Inv.of_fields {c' : RedisConn} (hmax : c'.rbufMaxLen = c.rbufMaxLen)
    (hlen : c'.rbufLen = c.rbufLen) (hlast : c'.lastReadPos = c.lastReadPos)
    (hpeak : c'.msgPeak = c.msgPeak) : Inv c' :=
  ⟨by rw [hmax]; exact h.max, by rw [hlen]; exact h.len, by rw [hlen, hmax]; exact h.len_max,
    by rw [hlast]; exact h.last, by rw [hlast, hlen]; exact h.last_le, by rw [hpeak]; exact h.peak⟩

theorem Inv.processed : Inv c.processed := by
  unfold RedisConn.processed
  dsimp only
  split
  · exact ⟨h.max, h.len, h.len_max, le_rfl, h.len, h.peak⟩
  · exact h.of_fields rfl rfl rfl rfl

theorem Inv.parse (bytes : Bytes) : Inv (c.parse string2l bytes) := by
  unfold RedisConn.parse
  dsimp only
  split
  · exact h.of_fields rfl rfl rfl rfl
  · exact Inv.processed (h.of_fields rfl rfl rfl rfl)

theorem Inv.receive {bytes : Bytes} (hne : bytes ≠ [])
    (hle : c.nextReadPos + bytes.length ≤ c.rbufLen) : Inv (c.receive string2l bytes) := by
  have hcount := h.count (List.length_pos_iff.mpr hne) hle
  unfold RedisConn.receive
  dsimp only
  split
  · exact hcount.of_fields rfl rfl rfl rfl
  · exact hcount.parse string2l bytes

theorem Inv.getRequest {alloc : Bool} {r : ReadResult} (hp : Possible c (.getRequest alloc r)) :
    Inv (c.getRequest string2l alloc r) := by
  unfold RedisConn.getRequest
  rcases hg : c.grow alloc with _ | c'
  · exact h.of_fields rfl rfl rfl rfl
  obtain ⟨n, rfl, hn, -, hmax⟩ := h.grow hg
  have h' := h.rbufLen hn (by omega)
  dsimp only
  rcases r with bytes | _ | _ | _
  · dsimp only
    split_ifs with ho
    · exact h'.of_fields rfl rfl rfl rfl
    · have hfit : c.nextReadPos + bytes.length ≤ n := not_lt.mp fun hlt => ho (.inr hlt)
      have hrec : Inv (RedisConn.record { c with rbufLen := n }
          (.read c.nextReadPos c.remain n)) := h'.of_fields rfl rfl rfl rfl
      exact hrec.receive string2l hp.1 hfit
  · exact h'.of_fields rfl rfl rfl rfl
  · exact h'.of_fields rfl rfl rfl rfl
  · exact h'.of_fields rfl rfl rfl rfl

theorem Inv.step {op : Op} (hp : Possible c op) : Inv (step string2l c op) := by
  unfold Reading.step
  split_ifs
  · exact h
  · cases op with
    | getRequest alloc r => exact h.getRequest string2l hp
    | tryResizeBuffer idletime => exact h.tryResizeBuffer idletime

/-- The announced length plays no part, or its conversion is harmless. -/
theorem Inv.window_iff {c' : RedisConn} {alloc : Bool} (hg : c.grow alloc = some c') :
    InWindow c.rbufMaxLen c.nextReadPos c.remain c'.rbufLen ↔
      c.free = 0 ∨ c.bulkLen ≤ c.free ∨
        (0 < toInt c.bulkLen ∧ c.nextReadPos + toInt c.bulkLen < 2 ^ 31) := by
  have hlen := h.len_le
  have hmax28 : c.rbufMaxLen ≤ 2 ^ 28 := h.max
  obtain ⟨n, rfl, hn, hnew, hmax⟩ := h.grow hg
  obtain ⟨h1, h2, h3, h4, h5, h6⟩ := h
  have hb := toInt_bounds c.bulkLen
  have hnext : 0 ≤ c.nextReadPos := by unfold nextReadPos; omega
  have hfree : c.nextReadPos + c.free = c.rbufLen := by unfold RedisConn.free; omega
  have hle : c.nextReadPos ≤ c.rbufLen := by unfold nextReadPos; omega
  dsimp only
  unfold newSize at hnew hmax
  unfold remain
  rw [toInt_add] at hnew hmax
  by_cases hf : c.free = 0
  · rw [if_pos hf] at hnew hmax ⊢
    rw [REDIS_IOBUF_LEN] at *
    refine iff_of_true ⟨?_, hnext, ?_, ?_⟩ (.inl hf) <;> omega
  rw [if_neg hf] at hnew hmax ⊢
  by_cases hl : c.free < c.bulkLen
  swap
  · rw [if_neg hl]
    refine iff_of_true ⟨?_, hnext, ?_, ?_⟩ (.inr (.inl (not_lt.mp hl))) <;> omega
  rw [if_pos hl] at hnew hmax ⊢
  rcases lt_or_ge (c.nextReadPos + toInt c.bulkLen) (2 ^ 31) with hs | hs
  · rw [toInt_of_bounds (by omega) hs] at hnew hmax
    constructor
    · exact fun hw => .inr (.inr ⟨hw.pos, hs⟩)
    · rintro (h0 | h0 | ⟨h0, -⟩)
      · omega
      · omega
      · exact ⟨h0, hnext, by omega, by omega⟩
  · refine iff_of_false (fun hw => ?_) ?_
    · have := hw.le
      omega
    · omega

/-- A call that does not read leaves the announced length aside. -/
theorem Inv.announced_of_full {alloc : Bool} (hg : c.grow alloc = none) :
    c.free = 0 ∨ c.bulkLen ≤ c.free ∨
      (0 < toInt c.bulkLen ∧ c.nextReadPos + toInt c.bulkLen < 2 ^ 31) := by
  have hlen := h.len_le
  obtain ⟨h1, h2, h3, h4, h5, h6⟩ := h
  have hb := toInt_bounds c.bulkLen
  have hnext : 0 ≤ c.nextReadPos := by unfold nextReadPos; omega
  have hle : c.nextReadPos ≤ c.rbufLen := by unfold nextReadPos; omega
  have hnew : c.rbufLen < c.newSize := by
    by_contra hn
    rw [RedisConn.grow, if_neg hn] at hg
    cases hg
  unfold newSize at hnew
  rw [toInt_add] at hnew
  by_cases hf : c.free = 0
  · exact .inl hf
  rw [if_neg hf] at hnew
  by_cases hl : c.free < c.bulkLen
  swap
  · exact .inr (.inl (not_lt.mp hl))
  rw [if_pos hl] at hnew
  refine .inr (.inr ?_)
  rcases lt_or_ge (c.nextReadPos + toInt c.bulkLen) (2 ^ 31) with hs | hs
  · rw [toInt_of_bounds (by omega) hs] at hnew
    omega
  · rw [toInt_of_ge hs (by omega)] at hnew
    omega

/-- **A step reads within the buffer exactly when the announced length is harmless.** -/
theorem Inv.readsOk_step (op : Op) :
    ReadsOk (Reading.step string2l c op) ↔ ReadsOk c ∧ Announced c op := by
  unfold Reading.step
  by_cases hs : Stuck c
  · rw [if_pos hs]
    cases op with
    | getRequest alloc r => simp [Announced, hs]
    | tryResizeBuffer idletime => simp [Announced]
  rw [if_neg hs]
  cases op with
  | tryResizeBuffer idletime =>
    rw [(quiet_tryResizeBuffer c idletime).2]
    simp [Announced]
  | getRequest alloc r =>
    dsimp only
    simp only [Announced, hs, false_or]
    unfold RedisConn.getRequest
    rcases hg : c.grow alloc with _ | c'
    · dsimp only
      rw [(quiet_ret c _).2]
      simp only [h.announced_of_full hg, and_true]
    have hw := h.window_iff hg
    obtain ⟨n, rfl, -⟩ := h.grow hg
    dsimp only at hw ⊢
    rw [← hw]
    have hrec : ∀ c'', Quiet (RedisConn.record { c with rbufLen := n }
        (.read c.nextReadPos c.remain n)) c'' →
        (ReadsOk c'' ↔ ReadsOk c ∧ InWindow c.rbufMaxLen c.nextReadPos c.remain n) := by
      intro c'' hq
      rw [hq.2, readsOk_record]
      rfl
    rcases r with bytes | _ | _ | _
    · dsimp only
      split_ifs
      · exact hrec _ (quiet_of_log rfl rfl)
      · exact hrec _ (quiet_receive string2l _ bytes)
    · exact hrec _ (quiet_ret _ _)
    · exact hrec _ (quiet_ret _ _)
    · exact hrec _ (quiet_ret _ _)

end Step

theorem inv_accepted {rbufMaxLen : ℤ} (h : rbufMaxLen ≤ REDIS_MAX_MESSAGE)
    (settings : RedisParserSettings) : Inv (accepted rbufMaxLen settings) :=
  ⟨h, le_rfl, .inr rfl, le_rfl, le_rfl, le_rfl⟩

theorem readsOk_run {c : RedisConn} : ∀ {ops : List Op}, Inv c →
    Guarded (step string2l) Possible c ops →
    (ReadsOk (run (step string2l) c ops) ↔
      ReadsOk c ∧ Guarded (step string2l) Announced c ops) := by
  intro ops
  induction ops generalizing c with
  | nil => simp [run, Guarded]
  | cons op ops ih =>
    intro h hops
    rw [run, List.foldl_cons]
    change ReadsOk (run _ (step string2l c op) ops) ↔ _
    rw [ih (h.step string2l hops.1) hops.2, h.readsOk_step, and_assoc]
    rfl

/-- **Every read of a run is within the buffer** exactly when every announced length is harmless
where it counts. -/
theorem within_iff (rbufMaxLen : ℤ) (h : rbufMaxLen ≤ REDIS_MAX_MESSAGE)
    (settings : RedisParserSettings) (ops : List Op)
    (hops : Guarded (step string2l) Possible (accepted rbufMaxLen settings) ops) :
    Within (run (step string2l) (accepted rbufMaxLen settings) ops) ↔
      Guarded (step string2l) Announced (accepted rbufMaxLen settings) ops := by
  have hinv := inv_accepted h settings
  have hend : Inv (run (step string2l) (accepted rbufMaxLen settings) ops) :=
    run_inv Inv (fun _ _ hi hp => hi.step string2l hp) hinv hops
  have hreads := readsOk_run string2l hinv hops
  have hnil : ReadsOk (accepted rbufMaxLen settings) := fun e he => by cases he
  constructor
  · exact fun hw => (hreads.mp hw.reads).2
  · exact fun hg => ⟨hreads.mpr ⟨hnil, hg⟩, by have := hend.peak; omega⟩

theorem within_iff_ping :
    Within (run (step Wire.string2l) (accepted REDIS_MAX_MESSAGE okSettings)
      [.getRequest true (.data (bytes "*1\r\n$4\r\nPI")), .tryResizeBuffer 3,
        .getRequest true (.data (bytes "NG\r\n"))]) ↔
    Guarded (step Wire.string2l) Announced (accepted REDIS_MAX_MESSAGE okSettings)
      [.getRequest true (.data (bytes "*1\r\n$4\r\nPI")), .tryResizeBuffer 3,
        .getRequest true (.data (bytes "NG\r\n"))] :=
  within_iff Wire.string2l REDIS_MAX_MESSAGE le_rfl okSettings _ (by decide +kernel)

/-- An argument of `2 ^ 31` bytes is announced: the next read asks for a negative number of
bytes. -/
theorem not_within :
    Guarded (step Wire.string2l) Possible (accepted REDIS_MAX_MESSAGE okSettings)
      [.getRequest true (.data (bytes "*1\r\n$2147483648\r\n")), .getRequest true .eagain] ∧
    ¬Within (run (step Wire.string2l) (accepted REDIS_MAX_MESSAGE okSettings)
      [.getRequest true (.data (bytes "*1\r\n$2147483648\r\n")), .getRequest true .eagain]) := by
  refine ⟨by decide +kernel, fun h => ?_⟩
  have hread := h.reads (.read 0 (-2147483648) 16384) (by decide +kernel)
  exact absurd hread.pos (by decide)

end Pink.Redis.Reading
