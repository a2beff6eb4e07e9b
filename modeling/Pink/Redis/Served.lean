import Pink.Redis.Reading

/-! # Connections in an event loop

An event loop calls `GetRequest` again only after `kReadAll` or `kReadHalf`; after any other status
it closes the connection. In such a run the parser keeps no more bytes than `command_len_` counts,
and so its buffer stays below the limit of the connection (`kept_run`). -/

namespace Pink.Redis.Served

open Pink.Redis.Wire Pink.Redis.Parser Pink.Redis.Scan Pink.Redis.Refine Pink.Redis.Feed
open Pink.Redis.Callbacks Pink.Redis.Reading Pink.Redis.Reading.RedisConn Pink.Lib.Runs

/-- The event loop has not closed the connection. -/
def Open (c : RedisConn) : Prop :=
  c.status = none ∨ c.status = some .readAll ∨ c.status = some .readHalf

/-- `GetRequest` is called as an event loop does. -/
def ByLoop (c : RedisConn) : Op → Prop
  | .getRequest _ _ => Open c
  | .tryResizeBuffer _ => True

/-- The conversions of lengths to `int` are exact, and the parser's buffer is below the limit. -/
structure Counted (c : RedisConn) : Prop where
  counts : ∀ a n, .count a n ∈ c.log → toInt (a + n) = a + n
  calls : ∀ half length : ℕ, .processInputBuffer half length ∈ c.log →
    (half : ℤ) + length < c.rbufMaxLen ∧ toInt32 (half + length) = (half : ℤ) + length

/-- **The parser's buffer is bounded by the limit of the connection**: this holds in every call, and
between two calls the kept bytes are counted and below the limit. -/
structure Kept (c : RedisConn) : Prop extends Counted c where
  between : ¬Stuck c → c.status = some .readAll ∨ c.status = some .readHalf →
    c.redisParser.halfArgv.length ≤ c.commandLen ∧ c.commandLen < c.rbufMaxLen

instance (c : RedisConn) : Decidable (Open c) := instDecidableOr

instance (c : RedisConn) : ∀ op, Decidable (ByLoop c op)
  | .getRequest _ _ => inferInstanceAs (Decidable (Open c))
  | .tryResizeBuffer _ => .isTrue trivial

/-! ### The invariant -/

/-- A connection on which `GetRequest` may be called again. -/
structure Carries (s : RedisParserSettings) (c : RedisConn) : Prop where
  last : c.lastReadPos = -1
  able : ∃ q h, Able s c.redisParser q h
  half : c.redisParser.halfArgv.length ≤ c.commandLen
  lt : c.commandLen < c.rbufMaxLen ∨ c.status = none ∧ c.commandLen = 0

/-- A run has come to an end, or may go on. -/
structure Going (s : RedisParserSettings) (c : RedisConn) : Prop where
  inv : Inv c
  counted : Counted c
  carries : ¬Stuck c → Open c → Carries s c

variable {string2l : Bytes → ℕ → Option ℤ} {s : RedisParserSettings} {c : RedisConn}

theorem Counted.of_log {c' : RedisConn} (h : Counted c) (hl : c'.log = c.log)
    (hm : c'.rbufMaxLen = c.rbufMaxLen) : Counted c' :=
  ⟨by rw [hl]; exact h.counts, by rw [hl, hm]; exact h.calls⟩

theorem Counted.record {e : Reading.Event} (h : Counted c)
    (hcount : ∀ a n, e = .count a n → toInt (a + n) = a + n)
    (hcall : ∀ half length : ℕ, e = .processInputBuffer half length →
      (half : ℤ) + length < c.rbufMaxLen ∧ toInt32 (half + length) = (half : ℤ) + length) :
    Counted (c.record e) := by
  refine ⟨fun a n hm => ?_, fun half length hm => ?_⟩
  · rcases List.mem_append.mp hm with hm | hm
    · exact h.counts a n hm
    · exact hcount a n (List.mem_singleton.mp hm).symm
  · rcases List.mem_append.mp hm with hm | hm
    · exact h.calls half length hm
    · exact hcall half length (List.mem_singleton.mp hm).symm

theorem Counted.ret (h : Counted c) (st : ReadStatus) : Counted (c.ret st) :=
  (h.record (e := .ret st) (fun _ _ he => by cases he) (fun _ _ he => by cases he)).of_log rfl rfl

theorem Counted.processed (h : Counted c) : Counted c.processed := by
  unfold RedisConn.processed
  dsimp only
  split
  · refine Counted.ret ?_ _
    exact h.of_log rfl rfl
  · exact h.ret _

/-- A status after which the event loop closes the connection. -/
theorem not_open_ret {st : ReadStatus} (h1 : st ≠ .readAll) (h2 : st ≠ .readHalf) :
    ¬Open (c.ret st) := by
  simp [Open, RedisConn.ret, h1, h2]

theorem parseRedisParserStatus_error {p : RedisParser} (h : p.statusCode = .error) :
    parseRedisParserStatus p ≠ .readAll ∧ parseRedisParserStatus p ≠ .readHalf := by
  unfold parseRedisParserStatus
  rw [h]
  cases p.errorCode <;> exact ⟨by decide, by decide⟩

theorem parseRedisParserStatus_wait {p : RedisParser} {q : Req}
    (h : p.statusCode = if q = .fresh then .done else .half) :
    parseRedisParserStatus p = if q = .fresh then .readAll else .readHalf := by
  unfold parseRedisParserStatus
  split_ifs at h ⊢ <;> rw [h]

/-! ### A step -/

/-- What is left to be shown of a step: the records, and the connection if it is called again. -/
structure Left (s : RedisParserSettings) (c : RedisConn) : Prop where
  counted : Counted c
  carries : ¬Stuck c → Open c → Carries s c

/-- A call that ends the connection. -/
theorem left_ret {st : ReadStatus} (h : Counted c) (h1 : st ≠ .readAll) (h2 : st ≠ .readHalf) :
    Left s (c.ret st) :=
  ⟨h.ret st, fun _ hopen => absurd hopen (not_open_ret h1 h2)⟩

/-- The counter is reset exactly when the parser keeps nothing. -/
theorem carries_processed {q : Req} {r : Bytes} (hable : Able s c.redisParser q r)
    (hstatus : c.redisParser.statusCode = if q = .fresh then .done else .half)
    (hfresh : q = .fresh → r = []) (hlen : r.length ≤ c.commandLen)
    (hlt : c.commandLen < c.rbufMaxLen) : Carries s c.processed := by
  have hread := parseRedisParserStatus_wait hstatus
  unfold processed
  dsimp only
  by_cases hq : q = .fresh
  · rw [if_pos hq] at hread
    rw [hread, if_pos (.inl rfl), if_pos rfl]
    refine ⟨rfl, ⟨q, r, hable⟩, ?_, .inl ?_⟩
    · show (c.redisParser.halfArgv.length : ℤ) ≤ 0
      rw [hable.half, hfresh hq]
      exact le_rfl
    · have : (0 : ℤ) ≤ r.length := by omega
      exact lt_of_le_of_lt (this.trans hlen) hlt
  · rw [if_neg hq] at hread
    rw [hread, if_pos (.inr rfl), if_neg (by decide)]
    refine ⟨rfl, ⟨q, r, hable⟩, ?_, .inl hlt⟩
    show (c.redisParser.halfArgv.length : ℤ) ≤ c.commandLen
    rw [hable.half]
    exact hlen

/-- What the parser keeps is a part of its buffer. -/
theorem left_parse {q : Req} {r bytes : Bytes} (h : Counted c) (hmax : c.rbufMaxLen ≤ 2 ^ 28)
    (hable : Able s c.redisParser q r) (hne : bytes ≠ [])
    (hlen : (r.length + bytes.length : ℤ) ≤ c.commandLen) (hlt : c.commandLen < c.rbufMaxLen) :
    Left s (c.parse string2l bytes) := by
  have hbuf : (r ++ bytes).length = r.length + bytes.length := List.length_append
  have hgoes := able_call string2l hable hne (by omega)
  have hrec : Counted { c.record (.processInputBuffer c.redisParser.halfArgv.length bytes.length)
      with redisParser := c.redisParser.processInputBuffer string2l bytes } := by
    refine (h.record (fun _ _ he => by cases he) fun half length he => ?_).of_log rfl rfl
    rw [hable.half] at he
    cases he
    exact ⟨by omega, toInt32_of_lt (by omega)⟩
  unfold parse
  dsimp only
  split
  next hf => exact ⟨hrec, fun hs => absurd (.inr hf) hs⟩
  next hf =>
    rw [not_not] at hf
    refine ⟨hrec.processed, fun _ hopen => ?_⟩
    -- an error closes the connection
    have herror : (c.redisParser.processInputBuffer string2l bytes).statusCode ≠ .error := by
      intro he
      obtain ⟨h1, h2⟩ := parseRedisParserStatus_error he
      unfold processed at hopen
      dsimp only at hopen
      rw [if_neg (by simp [h1, h2])] at hopen
      exact not_open_ret h1 h2 hopen
    rcases hgoes with hfail | hgoes
    · exact absurd hfail.1 herror
    rcases hcall : (call string2l q (r ++ bytes)).2 with ⟨q', r'⟩ | e | f <;> rw [hcall] at hgoes
    · have hwait := scan_wait (n := (r ++ bytes).length + 1) (l := (r ++ bytes).length)
        (by rw [← call, hcall])
      have hle : (r'.length : ℤ) ≤ c.commandLen := by have := hwait.1; omega
      exact carries_processed hgoes.1 hgoes.2 hwait.2 hle hlt
    · exact absurd hgoes.2.1 herror
    · rw [hgoes] at hf
      cases hf

theorem left_receive {bytes : Bytes} (hinv : Inv c) (h : Counted c) (hc : Carries s c)
    (hne : bytes ≠ []) (hle : bytes.length ≤ c.rbufLen) (hpos : 0 < c.rbufMaxLen) :
    Left s (c.receive string2l bytes) := by
  have hmax : c.rbufMaxLen ≤ 2 ^ 28 := hinv.max
  have hlen := hinv.len_le
  obtain ⟨hlast, ⟨q, r, hable⟩, hhalf, hlt⟩ := hc
  have hr : c.redisParser.halfArgv.length = r.length := congrArg List.length hable.half
  have hsum : toInt (c.commandLen + bytes.length) = c.commandLen + bytes.length :=
    toInt_of_bounds (by omega) (by omega)
  have hcount : Counted (c.count bytes.length) := by
    refine (h.record (e := .count c.commandLen bytes.length) (fun a n he => ?_)
      fun _ _ he => by cases he).of_log rfl rfl
    cases he
    exact hsum
  unfold receive
  dsimp only
  split
  · exact left_ret hcount (by decide) (by decide)
  next hcmd =>
    refine left_parse hcount hmax hable hne ?_ (not_le.mp hcmd)
    show _ ≤ toInt (c.commandLen + bytes.length)
    omega

theorem left_getRequest {alloc : Bool} {r : ReadResult} (h : Going s c)
    (hc : Carries s c) (hp : Possible c (.getRequest alloc r)) :
    Left s (c.getRequest string2l alloc r) := by
  obtain ⟨hinv, hcounted, -⟩ := h
  unfold getRequest
  rcases hg : c.grow alloc with _ | c'
  · exact left_ret hcounted (by decide) (by decide)
  obtain ⟨n, rfl, hn, hnew, hmax⟩ := hinv.grow hg
  have hinv' := hinv.rbufLen hn (by omega)
  have hnext : c.nextReadPos = 0 := by rw [nextReadPos, hc.last]; rfl
  -- a buffer that is read into is not empty
  have hpos : 0 < c.rbufMaxLen := by
    have := hinv.len
    have := hinv.len_max
    unfold newSize at hnew
    by_cases hf : c.free = 0
    · rw [if_pos hf, REDIS_IOBUF_LEN] at hnew
      omega
    · unfold RedisConn.free at hf
      omega
  have hlen : Counted { c with rbufLen := n } := hcounted.of_log rfl rfl
  have hrec : Counted (RedisConn.record { c with rbufLen := n }
      (.read c.nextReadPos c.remain n)) :=
    hlen.record (fun _ _ he => by cases he) fun _ _ he => by cases he
  have hcarries : Carries s (RedisConn.record { c with rbufLen := n }
      (.read c.nextReadPos c.remain n)) := ⟨hc.last, hc.able, hc.half, hc.lt⟩
  dsimp only
  rcases r with bytes | _ | _ | _
  · dsimp only
    split
    · exact ⟨hrec.of_log rfl rfl, fun hs => absurd (.inl rfl) hs⟩
    next ho =>
      have hfit : bytes.length ≤ n := by
        by_contra hlt
        refine ho (.inr ?_)
        show n < c.nextReadPos + bytes.length
        omega
      exact left_receive (hinv'.of_fields rfl rfl rfl rfl) hrec hcarries hp.1 hfit hpos
  · refine ⟨hrec.ret _, fun _ _ => ⟨hc.last, hc.able, hc.half, .inl ?_⟩⟩
    rcases hc.lt with hlt | ⟨-, h0⟩
    · exact hlt
    · show c.commandLen < c.rbufMaxLen
      rw [h0]
      exact hpos
  · exact left_ret hrec (by decide) (by decide)
  · exact left_ret hrec (by decide) (by decide)

theorem Going.step {op : Op} (h : Going s c) (hp : Possible c op) (hs : ByLoop c op) :
    Going s (Reading.step string2l c op) := by
  have hinv := h.inv.step string2l hp
  unfold Reading.step at hinv ⊢
  by_cases hstuck : Stuck c
  · rw [if_pos hstuck]
    exact h
  rw [if_neg hstuck] at hinv ⊢
  cases op with
  | getRequest alloc r =>
    obtain ⟨h1, h2⟩ : Left s (c.getRequest string2l alloc r) :=
      left_getRequest h (h.carries hstuck hs) hp
    exact ⟨hinv, h1, h2⟩
  | tryResizeBuffer idletime =>
    dsimp only at hinv ⊢
    unfold tryResizeBuffer at hinv ⊢
    split at hinv
    next hif =>
      rw [if_pos hif]
      refine ⟨hinv, h.counted.of_log rfl rfl, fun _ hopen => ?_⟩
      obtain ⟨h1, h2, h3, h4⟩ := h.carries hstuck hopen
      exact ⟨h1, h2, h3, h4⟩
    next hif =>
      rw [if_neg hif]
      exact h

/-! ### Runs -/

theorem going_accepted {rbufMaxLen : ℤ} (h : rbufMaxLen ≤ REDIS_MAX_MESSAGE)
    (settings : RedisParserSettings) : Going settings (accepted rbufMaxLen settings) :=
  ⟨inv_accepted h settings, ⟨fun _ _ hm => (nomatch hm), fun _ _ hm => (nomatch hm)⟩,
    fun _ _ => ⟨rfl, ⟨_, _, able_fresh settings⟩, le_rfl, .inr ⟨rfl, rfl⟩⟩⟩

theorem Going.kept (h : Going s c) : Kept c := by
  refine ⟨h.counted, fun hs hstatus => ?_⟩
  obtain ⟨-, -, h3, h4⟩ := h.carries hs (.inr hstatus)
  refine ⟨h3, h4.resolve_right fun h4 => ?_⟩
  rw [h4.1] at hstatus
  simp at hstatus

/-- **The parser's buffer stays below the limit of the connection** in every run. -/
theorem kept_run (rbufMaxLen : ℤ) (h : rbufMaxLen ≤ REDIS_MAX_MESSAGE)
    (settings : RedisParserSettings) (ops : List Op)
    (hp : Guarded (step string2l) Possible (accepted rbufMaxLen settings) ops)
    (hs : Guarded (step string2l) ByLoop (accepted rbufMaxLen settings) ops) :
    Kept (run (step string2l) (accepted rbufMaxLen settings) ops) :=
  (run_inv (Going settings) (fun _ _ hg hguard => hg.step hguard.1 hguard.2)
    (going_accepted h settings) (hp.and hs)).kept

theorem kept_run_ping : Kept (run (step Wire.string2l) (accepted REDIS_MAX_MESSAGE okSettings)
    [.getRequest true (.data (bytes "*1\r\n$4\r\nPI")), .tryResizeBuffer 3,
      .getRequest true .eagain, .getRequest true (.data (bytes "NG\r\n"))]) :=
  kept_run REDIS_MAX_MESSAGE le_rfl okSettings _ (by decide +kernel) (by decide +kernel)

end Pink.Redis.Served
