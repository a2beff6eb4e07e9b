import Pink.Redis.Pipeline

/-! # Every command is dealt with once and in order

A client sends a stream of commands, and `GetRequest` is called whenever bytes have come. Between
two commands the parser is as good as new, so what it has delivered since is told by the bytes that
it has been given since (`feed_holds`), and these are the ones that `command_len_` counts. So after
any calls the commands passed to `DealMessage` are those whose last byte has been read, and
`kReadAll` is returned exactly where a command ends (`dealt_exact`). The length of the whole stream
is not limited.

The lengths that a client announces for the arguments of a command are below `2 ^ 31`, so no read
goes beyond the buffer. -/

namespace Pink.Redis.Dealt

open Pink.Redis.Wire Pink.Redis.Parser Pink.Redis.Scan Pink.Redis.Refine Pink.Redis.Fragment
open Pink.Redis.Feed Pink.Redis.Format Pink.Redis.RoundTrip Pink.Redis.Reading
open Pink.Redis.Reading.RedisConn Pink.Redis.Served Pink.Redis.Pieces Pink.Redis.Pipeline
open Pink.Redis.Callbacks Pink.Lib.Chunks Pink.Lib.Runs

/-! ### The first bytes of a stream -/

/-- The first bytes `t` of the stream of `em ++ rest` hold the commands `em` and no other. -/
structure Holds (em rest : List Argv) (t : Bytes) : Prop where
  complete : stream em <+: t
  part : ∀ c ∈ rest.head?, t.length < (stream em).length + (commandBytes c).length

theorem Holds.cons {c : Argv} {em rest : List Argv} {t : Bytes} (h : Holds em rest t) :
    Holds (c :: em) rest (commandBytes c ++ t) := by
  refine ⟨?_, fun d hd => ?_⟩
  · rw [stream, List.flatMap_cons]
    exact (List.prefix_append_right_inj _).mpr h.complete
  · have := h.part d hd
    simp only [stream, List.flatMap_cons, List.length_append] at this ⊢
    omega

section Parser
variable {string2l : Bytes → ℕ → Option ℤ} (hs : String2lSpec string2l)
include hs

/-- **The scan of the first bytes of a stream** delivers the commands that they hold, and ends
between two commands if they hold nothing else. -/
theorem reads_holds (total : ℕ) (l : ℤ) : ∀ (cmds : List Argv),
    (∀ c ∈ cmds, Short (2 ^ 31) c) → ∀ {t : Bytes}, t <+: stream cmds →
    ∃ em rest q h, cmds = em ++ rest ∧ Holds em rest t ∧
      Reads string2l total l .fresh t (em, .wait q h) ∧ (q = .fresh ↔ t = stream em) := by
  intro cmds
  induction cmds with
  | nil =>
    intro _ t ht
    rw [List.prefix_nil.mp ht]
    exact ⟨[], [], .fresh, [], rfl, ⟨List.nil_prefix, by simp⟩, Reads.nil, by simp⟩
  | cons c cmds ih =>
    intro hc t ht
    obtain ⟨hne, hlen⟩ := hc c List.mem_cons_self
    rw [stream, List.flatMap_cons] at ht
    rcases prefix_append_cases ht with ⟨h1, h2⟩ | ⟨t', rfl, h1⟩
    · have hlt : t.length < (commandBytes c).length := by
        by_contra hge
        exact h2 (h1.eq_of_length_le (not_lt.mp hge))
      have hholds : Holds [] (c :: cmds) t :=
        ⟨List.nil_prefix, fun d hd => by
          obtain rfl : c = d := by simpa using hd
          simpa using hlt⟩
      by_cases h0 : t = []
      · subst h0
        exact ⟨[], c :: cmds, .fresh, [], rfl, hholds, Reads.nil, by simp⟩
      · obtain ⟨q, h, hq, hr⟩ := reads_part hs hne hlen h1 h2 h0
        exact ⟨[], c :: cmds, q, h, rfl, hholds, hr, by simp [hq, h0]⟩
    · obtain ⟨em, rest, q, h, rfl, hh, hr, hq⟩ :=
        ih (fun d hd => hc d (List.mem_cons_of_mem _ hd)) h1
      have hcmd := reads_command hs hne hlen hr
      rw [Scan.deliver, if_neg hne] at hcmd
      exact ⟨c :: em, rest, q, h, rfl, hh.cons, hcmd, by simp [hq]⟩

/-- A parser that stands between two commands, as good as new. -/
structure Fresh (p : RedisParser) : Prop where
  ready : Ready p .fresh []
  balanced : Balanced p
  argvs : p.argvs = []

omit hs in
theorem fresh_freshRequest : Fresh (freshRequest okSettings) := ⟨ready_fresh, rfl, rfl⟩

omit hs in
/-- Nothing is kept between two commands. -/
theorem feedAll_fresh : ∀ (cs : List Bytes) {s : Req × Bytes} {h : Bytes},
    (s.1 = .fresh → s.2 = []) →
    (feedAll (feedCall string2l) s cs).2 = .inl (.fresh, h) → h = [] := by
  intro cs
  induction cs with
  | nil =>
    intro s h hs hx
    obtain rfl : s = (.fresh, h) := Sum.inl.inj hx
    exact hs rfl
  | cons c cs ih =>
    intro s h _ hx
    rcases hc : call string2l s.1 (s.2 ++ c) with ⟨em, ⟨q, r⟩ | e | f⟩
    · have hwait : q = .fresh → r = [] :=
        (scan_wait (n := (s.2 ++ c).length + 1) (l := (s.2 ++ c).length) (by rw [← call, hc])).2
      refine ih (s := (q, r)) hwait ?_
      rw [feedAll, feedCall, hc] at hx
      exact hx
    · rw [feedAll, feedCall, hc] at hx
      cases hx
    · rw [feedAll, feedCall, hc] at hx
      cases hx

variable (string2l) in
omit hs in
/-- Every command takes at least one byte. -/
theorem scan_length_le (l : ℤ) : ∀ (n : ℕ) (q : Req) (r : Bytes),
    (scan string2l l n q r).1.length ≤ r.length
  | 0, _, _ => by rw [scan]; exact Nat.zero_le _
  | n + 1, q, r => by
    rw [scan]
    by_cases hfr : q = .fresh ∧ r = []
    · rw [if_pos hfr]
      exact Nat.zero_le _
    rw [if_neg hfr]
    rcases hm : Scan.step string2l l q r with ⟨p, s⟩ | e | f | ⟨p, s⟩ | ⟨w, s⟩ <;> dsimp only
    · exact Nat.zero_le _
    · exact Nat.zero_le _
    · exact Nat.zero_le _
    · have := step_next_shorter hm
      have := scan_length_le l n p s
      omega
    · have := step_emit_shorter hm
      have := scan_length_le l n .fresh s
      unfold deliver
      split_ifs
      · omega
      · rw [List.length_cons]
        omega

/-- **A fresh parser that is fed the first bytes of a stream** has dealt with the commands that they
hold. -/
theorem feed_holds {p : RedisParser} (hp : Fresh p) {cmds : List Argv}
    (hc : ∀ c ∈ cmds, Short (2 ^ 31) c) {cs : List Bytes} (hne : cs ≠ [])
    (hcs : ∀ c ∈ cs, c ≠ []) (hlen : cs.flatten.length < 2 ^ 31) (ht : cs.flatten <+: stream cmds) :
    ∃ em rest q h, cmds = em ++ rest ∧ Holds em rest cs.flatten ∧
      dealt (p.feed string2l cs).log = dealt p.log ++ em ∧
      (q = .fresh ↔ cs.flatten = stream em) ∧ (q = .fresh → h = []) ∧
      Ready (p.feed string2l cs) q h ∧
      Balanced (p.feed string2l cs) ∧ Returned (p.feed string2l cs) q := by
  obtain ⟨em, rest, q, h, rfl, hh, hr, hq⟩ :=
    reads_holds hs cs.flatten.length cs.flatten.length cmds hc ht
  have hseen := seen_feedAll (composes hs hlen) hne hcs (good_fresh hr.steady)
  have hcall : feedCall string2l (.fresh, []) cs.flatten = result (em, .wait q h) := by
    rw [feedCall, List.nil_append, call, hr.scan]
  rw [hcall] at hseen
  obtain ⟨h1, h2, h3⟩ := feed_ends string2l cs hp.ready hp.balanced hcs
    (by rw [List.nil_append]; exact hlen)
  rcases hx : (feedAll (feedCall string2l) (.fresh, []) cs).2 with ⟨q', h'⟩ | e
  · rw [hx] at h2
    have hqq : q' = .fresh ↔ q = .fresh := by
      simpa [seen, result, outcome, between, hx] using congrArg Prod.snd hseen
    have hem : (feedAll (feedCall string2l) (.fresh, []) cs).1 = em := by
      simpa [seen, result] using congrArg Prod.fst hseen
    refine ⟨em, rest, q', h', rfl, hh, by rw [h1, hem], hqq.trans hq, ?_, h2.1, h2.2,
      (h3 q' h' hx).resolve_left hne⟩
    rintro rfl
    exact feedAll_fresh cs (fun _ => rfl) hx
  · simp [seen, result, outcome, hx] at hseen

end Parser

/-! ### A connection -/

section Connection
variable {string2l : Bytes → ℕ → Option ℤ} {all : List Argv} {c : RedisConn} {t : Bytes}

/-- Of the bytes `t` that have arrived those behind the commands `before` are what the parser has
been given since it last stood between two commands, and what `command_len_` counts. -/
structure Since (string2l : Bytes → ℕ → Option ℤ) (all : List Argv) (c : RedisConn) (t : Bytes)
    (before todo : List Argv) (cs : List Bytes) (p : RedisParser) : Prop where
  all_eq : all = before ++ todo
  fresh : Fresh p
  log : dealt p.log = before
  parser : c.redisParser = p.feed string2l cs
  nonempty : ∀ b ∈ cs, b ≠ []
  arrived : t = stream before ++ cs.flatten
  command : c.commandLen = cs.flatten.length

/-- The parser waits for the rest `u` of the stream. -/
structure Waits (all : List Argv) (c : RedisConn) (u : Bytes) : Prop where
  place : ∃ q h cmds, Ready c.redisParser q h ∧ Awaits (2 ^ 31) cmds q (h ++ u) ∧
    Begun all q cmds u
  bulk : c.bulkLen < 2 ^ 31

/-- The commands dealt with are the first ones, and while the connection is open they are told by
what has arrived. -/
structure Deals (string2l : Bytes → ℕ → Option ℤ) (all : List Argv) (c : RedisConn) (t : Bytes) :
    Prop where
  going : Going okSettings c
  stuck : ¬Stuck c
  prefix_all : dealt c.redisParser.log <+: all
  since : Open c → ∃ before todo cs p, Since string2l all c t before todo cs p ∧
    (c.status = some .readAll → cs = [])
  waits : Open c → ∀ u, t ++ u = stream all → Waits all c u

theorem Since.prefix_todo {before todo : List Argv} {cs : List Bytes} {p : RedisParser}
    (h : Since string2l all c t before todo cs p) {b : Bytes} (ht : t ++ b <+: stream all) :
    cs.flatten ++ b <+: stream todo := by
  rw [h.arrived, h.all_eq, List.append_assoc, stream, stream, List.flatMap_append] at ht
  exact (List.prefix_append_right_inj _).mp ht

theorem stream_append (xs ys : List Argv) : stream (xs ++ ys) = stream xs ++ stream ys :=
  List.flatMap_append

theorem Holds.append {em rest : List Argv} {t : Bytes} (h : Holds em rest t) (before : List Argv) :
    Holds (before ++ em) rest (stream before ++ t) := by
  refine ⟨?_, fun c hc => ?_⟩
  · rw [stream_append]
    exact (List.prefix_append_right_inj _).mpr h.complete
  · have := h.part c hc
    rw [stream_append]
    simp only [List.length_append]
    omega

/-- What has arrived tells the commands dealt with. -/
theorem Since.holds (hs : String2lSpec string2l) (hall : ∀ c ∈ all, Short (2 ^ 31) c)
    {before todo : List Argv} {cs : List Bytes} {p : RedisParser}
    (h : Since string2l all c t before todo cs p) (hlt : c.commandLen < 2 ^ 31)
    (ht : t <+: stream all) : ∃ em rest, todo = em ++ rest ∧
      dealt c.redisParser.log = before ++ em ∧ Holds (before ++ em) rest t ∧
      (cs = [] → em = []) := by
  by_cases hcs : cs = []
  · subst hcs
    refine ⟨[], todo, rfl, ?_, ?_, fun _ => rfl⟩
    · rw [h.parser, List.append_nil]
      exact h.log
    · rw [h.arrived]
      refine Holds.append ⟨List.prefix_refl _, fun c hc => ?_⟩ before
      obtain ⟨hne, -⟩ := hall c (by rw [h.all_eq]; simp [List.mem_of_mem_head? hc])
      have := length_lt_commandBytes c
      simp only [stream, List.flatMap_nil, List.length_nil]
      omega
  · have hcommand := h.command
    have hpre : cs.flatten <+: stream todo := by
      have := h.prefix_todo (b := []) (by rwa [List.append_nil])
      rwa [List.append_nil] at this
    obtain ⟨em, rest, q, r, rfl, hh, hd, -⟩ := feed_holds hs h.fresh
      (fun c hc => hall c (by rw [h.all_eq]; simp [hc])) hcs h.nonempty (by omega) hpre
    refine ⟨em, rest, rfl, ?_, ?_, fun hnil => absurd hnil hcs⟩
    · rw [h.parser, hd, h.log]
    · rw [h.arrived]
      exact hh.append before

/-- A call that does not reach the parser and leaves the connection open changes nothing. -/
theorem Since.congr {c' : RedisConn} {before todo : List Argv} {cs : List Bytes} {p : RedisParser}
    (h : Since string2l all c t before todo cs p) (hp : c'.redisParser = c.redisParser)
    (hcmd : c'.commandLen = c.commandLen) : Since string2l all c' t before todo cs p :=
  ⟨h.all_eq, h.fresh, h.log, by rw [hp, h.parser], h.nonempty, h.arrived, by rw [hcmd, h.command]⟩

theorem feed_concat (p : RedisParser) (cs : List Bytes) (b : Bytes) :
    p.feed string2l (cs ++ [b]) = (p.feed string2l cs).processInputBuffer string2l b := by
  simp only [RedisParser.feed, List.foldl_append, List.foldl_cons, List.foldl_nil]

/-- **The parser takes the next bytes of the stream.** -/
theorem Since.parse (hs : String2lSpec string2l) (hall : ∀ c ∈ all, Short (2 ^ 31) c)
    {before todo : List Argv} {cs : List Bytes} {p : RedisParser} {b : Bytes}
    (h : Since string2l all c t before todo cs p) (hb : b ≠ [])
    (hlt : (cs.flatten.length + b.length : ℤ) < 2 ^ 31) (ht : t ++ b <+: stream all) :
    ∃ em rest q r, todo = em ++ rest ∧ Holds (before ++ em) rest (t ++ b) ∧
      dealt (c.redisParser.processInputBuffer string2l b).log = before ++ em ∧
      (q = .fresh ↔ t ++ b = stream (before ++ em)) ∧ (q = .fresh → r = []) ∧
      Ready (c.redisParser.processInputBuffer string2l b) q r ∧
      Balanced (c.redisParser.processInputBuffer string2l b) ∧
      Returned (c.redisParser.processInputBuffer string2l b) q := by
  have hflat : (cs ++ [b]).flatten = cs.flatten ++ b := by simp
  have hne : ∀ d ∈ cs ++ [b], d ≠ [] := by
    intro d hd
    rcases List.mem_append.mp hd with hd | hd
    · exact h.nonempty d hd
    · rw [List.mem_singleton.mp hd]
      exact hb
  have hshort : ∀ c ∈ todo, Short (2 ^ 31) c := fun c hc =>
    hall c (by rw [h.all_eq]; exact List.mem_append_right _ hc)
  have hsome : cs ++ [b] ≠ [] := by simp
  obtain ⟨em, rest, q, r, rfl, hh, hd, hq, hr, hready, hbal, hret⟩ := feed_holds hs h.fresh hshort
    hsome hne (by rw [hflat, List.length_append]; omega) (by rw [hflat]; exact h.prefix_todo ht)
  rw [feed_concat, ← h.parser] at hd hready hbal hret
  rw [hflat] at hh hq
  refine ⟨em, rest, q, r, rfl, ?_, by rw [hd, h.log], hq.trans ?_, hr, hready, hbal,
    hret⟩
  · rw [h.arrived, List.append_assoc]
    exact hh.append before
  · rw [h.arrived, stream_append, List.append_assoc, List.append_cancel_left_eq]

/-- A read behind which there is still room for what was asked for. -/
theorem Waits.fits {u b : Bytes} {n : ℤ} {alloc : Bool} (h : Waits all c u) (hinv : Inv c)
    (hlast : c.lastReadPos = -1) (hg : c.grow alloc = some { c with rbufLen := n })
    (hb : b.length ≤ sizeT c.remain) : 0 ≤ c.nextReadPos ∧ c.nextReadPos + b.length ≤ n := by
  have hnext : c.nextReadPos = 0 := by rw [nextReadPos, hlast]; rfl
  have hwindow := (hinv.window_iff hg).mpr (by
    by_cases hlt : c.free < c.bulkLen
    · have hlen := hinv.len
      have hbulk := h.bulk
      have hfree : c.free = c.rbufLen := by rw [RedisConn.free, hnext, sub_zero]
      have htoInt : toInt c.bulkLen = c.bulkLen := toInt_of_bounds (by omega) hbulk
      refine .inr (.inr ?_)
      rw [htoInt, hnext]
      omega
    · exact .inr (.inl (not_lt.mp hlt)))
  obtain ⟨hpos, hstart, hle, -⟩ := hwindow
  have hlt : c.remain < 2 ^ 64 := by
    obtain ⟨m, hm, hn, -, hmax⟩ := hinv.grow hg
    obtain rfl : n = m := congrArg RedisConn.rbufLen hm
    have := (hinv.rbufLen hn (by omega)).len_le
    dsimp only at this hle
    omega
  rw [sizeT_of_nonneg hpos.le hlt] at hb
  dsimp only at hle
  omega

/-- **The call on the next bytes**: it ends waiting for what comes behind them. -/
theorem Waits.call (hs : String2lSpec string2l) (hall : ∀ c ∈ all, Short (2 ^ 31) c)
    {u b : Bytes} (h : Waits all c (b ++ u)) (hb : b ≠ [])
    (hlen : c.redisParser.halfArgv.length + b.length < 2 ^ 31) :
    ∃ q r cmds em,
      Ends c.redisParser (em, .wait q r) (c.redisParser.processInputBuffer string2l b) ∧
      em.length < 2 ^ 31 ∧ Ready (c.redisParser.processInputBuffer string2l b) q r ∧
      Awaits (2 ^ 31) cmds q (r ++ u) ∧ Begun all q cmds u := by
  obtain ⟨q, r, cmds, hready, haw, hbegun⟩ := h.place
  have hlen' : (r ++ b).length < 2 ^ 31 := by
    rw [List.length_append, ← hready.half]
    exact hlen
  have hbegun' : Begun all q cmds u := hbegun.mono (by simp)
  rw [← List.append_assoc] at haw
  obtain ⟨q', r', cmds', hscan, haw', hplace⟩ := scan_awaits hs le_rfl hall (r ++ b).length
    ((r ++ b).length + 1) haw hbegun' (lt_add_one _)
  have hends := processInputBuffer_ends string2l hready hb hlen'
  have hle := scan_length_le string2l (r ++ b).length ((r ++ b).length + 1) q (r ++ b)
  rw [← Scan.call] at hscan hle
  rcases hcall : Scan.call string2l q (r ++ b) with ⟨em, x⟩
  obtain rfl : x = .wait q' r' := by rw [hcall] at hscan; exact hscan
  rw [hcall] at hends hle
  have hready' := hready.next hends
    (scan_wait (n := (r ++ b).length + 1) (l := (r ++ b).length) (by rw [← Scan.call, hcall])).2
  exact ⟨q', r', cmds', em, hends, lt_of_le_of_lt hle hlen', hready', haw', hplace.begun⟩

/-- The parser waits again behind the next bytes. -/
theorem Waits.parse (hs : String2lSpec string2l) (hall : ∀ c ∈ all, Short (2 ^ 31) c)
    {u b : Bytes} (h : Waits all c (b ++ u)) (hb : b ≠ [])
    (hlen : c.redisParser.halfArgv.length + b.length < 2 ^ 31) {c' : RedisConn}
    (hp : c'.redisParser = c.redisParser.processInputBuffer string2l b)
    (hbulk : c'.bulkLen = c'.redisParser.bulkLen) : Waits all c' u := by
  obtain ⟨q, r, cmds, em, -, -, hready, haw, hbegun⟩ := h.call hs hall hb hlen
  rw [← hp] at hready
  refine ⟨⟨q, r, cmds, hready, haw, hbegun⟩, ?_⟩
  rw [hbulk, bulkLen_of_rep hready.rep]
  exact blen_lt haw

/-- A connection that is not served any more. -/
theorem Deals.of_closed {c' : RedisConn} {t' : Bytes} (h : Deals string2l all c t)
    (hgoing : Going okSettings c') (hp : c'.redisParser = c.redisParser)
    (hover : c'.overrun = c.overrun) (hclosed : ¬Open c') : Deals string2l all c' t' :=
  ⟨hgoing, by unfold Stuck; rw [hp, hover]; exact h.stuck, by rw [hp]; exact h.prefix_all,
    fun ho => absurd ho hclosed, fun ho => absurd ho hclosed⟩

/-- The lines behind a `read` that fits. -/
theorem deals_parse (hs : String2lSpec string2l) (hall : ∀ c ∈ all, Short (2 ^ 31) c)
    {before todo : List Argv} {cs : List Bytes} {p : RedisParser} {b : Bytes} {c' : RedisConn}
    (h : Since string2l all c t before todo cs p) (hb : b ≠ [])
    (hlt : (cs.flatten.length + b.length : ℤ) < 2 ^ 31) (ht : t ++ b <+: stream all)
    (hparser : c'.redisParser = c.redisParser)
    (hcommand : c'.commandLen = cs.flatten.length + b.length) (hover : c'.overrun = false)
    (hhalf : c.redisParser.halfArgv.length + b.length < 2 ^ 31)
    (hwaits : ∀ u, t ++ (b ++ u) = stream all → Waits all c (b ++ u))
    (hgoing : Going okSettings (c'.parse string2l b)) :
    Deals string2l all (c'.parse string2l b) (t ++ b) := by
  obtain ⟨em, rest, q, r, rfl, hh, hd, hq, hr, hready, hbal, hret⟩ := h.parse hs hall hb hlt ht
  have hwaits' : ∀ {c'' : RedisConn},
      c''.redisParser = c.redisParser.processInputBuffer string2l b →
      c''.bulkLen = c''.redisParser.bulkLen → ∀ u, t ++ b ++ u = stream all → Waits all c'' u :=
    fun hp hbulk u hu =>
      (hwaits u (by rw [← hu, List.append_assoc])).parse hs hall hb hhalf hp hbulk
  have hflat : (cs ++ [b]).flatten = cs.flatten ++ b := by simp
  rw [← hparser] at hd hready hbal hret hwaits'
  have hstatus := parseRedisParserStatus_wait hret.1
  have hpre : before ++ em <+: all := ⟨rest, by rw [h.all_eq, List.append_assoc]⟩
  have hparse : c'.parse string2l b = RedisConn.processed
      { c'.record (.processInputBuffer c'.redisParser.halfArgv.length b.length) with
        redisParser := c'.redisParser.processInputBuffer string2l b } := by
    unfold RedisConn.parse
    dsimp only
    rw [if_neg (not_not.mpr hready.fault)]
  rw [hparse] at hgoing ⊢
  unfold RedisConn.processed at hgoing ⊢
  dsimp only at hgoing ⊢
  by_cases hfresh : q = .fresh
  · rw [if_pos hfresh] at hstatus
    rw [hstatus, if_pos (.inl rfl), if_pos rfl] at hgoing ⊢
    refine ⟨hgoing, by simp [Stuck, RedisConn.ret, RedisConn.record, hover, hready.fault],
      by rw [← hd] at hpre; exact hpre, fun _ => ?_, fun _ => hwaits' rfl rfl⟩
    refine ⟨before ++ em, rest, [], _, ⟨by rw [h.all_eq, List.append_assoc], ?_, hd, rfl, by simp,
      ?_, rfl⟩, fun _ => rfl⟩
    · rw [hfresh, hr hfresh] at hready
      exact ⟨hready, hbal, hret.2 hfresh⟩
    · rw [hq.mp hfresh]
      simp
  · rw [if_neg hfresh] at hstatus
    rw [hstatus, if_pos (.inr rfl), if_neg (by decide)] at hgoing ⊢
    refine ⟨hgoing, by simp [Stuck, RedisConn.ret, RedisConn.record, hover, hready.fault],
      by rw [← hd] at hpre; exact hpre, fun _ => ?_, fun _ => hwaits' rfl rfl⟩
    refine ⟨before, em ++ rest, cs ++ [b], p, ⟨h.all_eq, h.fresh, h.log, ?_, ?_, ?_, ?_⟩, ?_⟩
    · rw [feed_concat, ← h.parser, ← hparser]
      rfl
    · intro d hd
      rcases List.mem_append.mp hd with hd | hd
      · exact h.nonempty d hd
      · rw [List.mem_singleton.mp hd]
        exact hb
    · rw [h.arrived, hflat, List.append_assoc]
    · show c'.commandLen = _
      rw [hcommand, hflat, List.length_append]
      rfl
    · intro hst
      cases hst

/-- A call that reads nothing and keeps the connection open. -/
theorem Deals.of_same {c' : RedisConn} (h : Deals string2l all c t) (hopen : Open c)
    (hgoing : Going okSettings c') (hparser : c'.redisParser = c.redisParser)
    (hcommand : c'.commandLen = c.commandLen) (hover : c'.overrun = c.overrun)
    (hbulk : c'.bulkLen = c.bulkLen)
    (hstatus : c'.status = some .readAll → c.status = some .readAll) :
    Deals string2l all c' t := by
  refine ⟨hgoing, by unfold Stuck; rw [hparser, hover]; exact h.stuck,
    by rw [hparser]; exact h.prefix_all, fun _ => ?_, fun _ u hu => ?_⟩
  · obtain ⟨before, todo, cs, p, hsince, hcs⟩ := h.since hopen
    exact ⟨before, todo, cs, p, hsince.congr hparser hcommand, fun hst => hcs (hstatus hst)⟩
  · obtain ⟨h1, h2⟩ := h.waits hopen u hu
    exact ⟨by rw [hparser]; exact h1, by rw [hbulk]; exact h2⟩

/-- A read of an open connection fits in its buffer, and an `int` counts what the parser is
given. -/
theorem Deals.room {c' : RedisConn} {alloc : Bool} {b : Bytes} (h : Deals string2l all c t)
    (hopen : Open c) (hg : c.grow alloc = some c') (hp : Possible c (.getRequest alloc (.data b)))
    (ht : t ++ b <+: stream all) : 0 ≤ c.nextReadPos ∧ c.nextReadPos + b.length ≤ c'.rbufLen ∧
      c.redisParser.halfArgv.length + b.length < 2 ^ 31 := by
  obtain ⟨hinv, -, hcarries⟩ := h.going
  obtain ⟨hlast, -, hhalf, hlt⟩ := hcarries h.stuck hopen
  have hmax : c.rbufMaxLen ≤ 2 ^ 28 := hinv.max
  obtain ⟨n, rfl, hn, -, hmaxn⟩ := hinv.grow hg
  have hlen := (hinv.rbufLen hn (by omega)).len_le
  obtain ⟨u, hu⟩ := ht
  obtain ⟨hpos, hfit⟩ := (h.waits hopen (b ++ u) (by rw [← hu, List.append_assoc])).fits hinv hlast
    hg hp.2
  refine ⟨hpos, hfit, ?_⟩
  dsimp only at hlen
  omega

/-- **One step.** -/
theorem Deals.step (hs : String2lSpec string2l) (hall : ∀ c ∈ all, Short (2 ^ 31) c) {op : Op}
    (h : Deals string2l all c t) (hp : Possible c op) (hl : ByLoop c op)
    (ht : t ++ arriving op <+: stream all) :
    Deals string2l all (Reading.step string2l c op) (t ++ arriving op) := by
  have hgoing : Going okSettings (Reading.step string2l c op) := h.going.step hp hl
  have hover : c.overrun = false := by
    have := h.stuck
    unfold Stuck at this
    rw [not_or, Bool.not_eq_true] at this
    exact this.1
  unfold Reading.step at hgoing ⊢
  rw [if_neg h.stuck] at hgoing ⊢
  cases op with
  | tryResizeBuffer idletime =>
    dsimp only at hgoing ⊢
    have hsame : (c.tryResizeBuffer idletime).redisParser = c.redisParser ∧
        (c.tryResizeBuffer idletime).commandLen = c.commandLen ∧
        (c.tryResizeBuffer idletime).status = c.status ∧
        (c.tryResizeBuffer idletime).overrun = c.overrun ∧
        (c.tryResizeBuffer idletime).bulkLen = c.bulkLen := by
      unfold tryResizeBuffer
      split_ifs <;> exact ⟨rfl, rfl, rfl, rfl, rfl⟩
    obtain ⟨h1, h2, h3, h4, h5⟩ := hsame
    rw [show t ++ arriving (.tryResizeBuffer idletime) = t from List.append_nil t]
    by_cases hopen : Open c
    · exact h.of_same hopen hgoing h1 h2 h4 h5 fun hst => by rwa [h3] at hst
    · exact h.of_closed hgoing h1 h4 fun ho => hopen (by unfold Open at ho ⊢; rwa [h3] at ho)
  | getRequest alloc r =>
    have hopen : Open c := hl
    obtain ⟨hinv, -, hcarries⟩ := h.going
    have hlt := (hcarries h.stuck hopen).lt
    have hmax : c.rbufMaxLen ≤ 2 ^ 28 := hinv.max
    dsimp only at hgoing ⊢
    unfold RedisConn.getRequest at hgoing ⊢
    rcases hg : c.grow alloc with _ | c₁ <;> rw [hg] at hgoing <;> dsimp only at hgoing ⊢
    · exact h.of_closed hgoing rfl rfl (not_open_ret (by decide) (by decide))
    obtain ⟨n, rfl, hn, -, hmaxn⟩ := hinv.grow hg
    have hlen := (hinv.rbufLen hn (by omega)).len_le
    rcases r with b | _ | _ | _ <;> dsimp only at hgoing hlen ⊢
    · obtain ⟨hpos, hfit, hroom⟩ := h.room hopen hg hp ht
      have hwaits : ∀ u, t ++ (b ++ u) = stream all → Waits all c (b ++ u) :=
        fun u => h.waits hopen (b ++ u)
      dsimp only at hfit
      rw [if_neg fun ho => ho.elim (not_lt.mpr hpos) (not_lt.mpr hfit)] at hgoing ⊢
      obtain ⟨before, todo, cs, p, hsince, -⟩ := h.since hopen
      have hcommand := hsince.command
      have hsum : (cs.flatten.length + b.length : ℤ) < 2 ^ 31 := by omega
      have hcount : toInt (c.commandLen + b.length) = cs.flatten.length + b.length := by
        rw [hcommand, toInt_of_bounds (by omega) hsum]
      unfold RedisConn.receive at hgoing ⊢
      dsimp only at hgoing ⊢
      split_ifs at hgoing ⊢ with hfull
      · exact h.of_closed hgoing rfl rfl (not_open_ret (by decide) (by decide))
      · exact deals_parse hs hall hsince hp.1 hsum ht rfl hcount hover hroom hwaits hgoing
    · rw [show t ++ arriving (.getRequest alloc .eagain) = t from List.append_nil t]
      refine h.of_same hopen hgoing rfl rfl rfl rfl fun hst => ?_
      cases hst
    · exact h.of_closed hgoing rfl rfl (not_open_ret (by decide) (by decide))
    · exact h.of_closed hgoing rfl rfl (not_open_ret (by decide) (by decide))

theorem deals_accepted {max : ℤ} (hmax : max ≤ REDIS_MAX_MESSAGE) (all : List Argv) :
    Deals string2l all (accepted max okSettings) [] := by
  refine ⟨going_accepted hmax okSettings, fun hstuck => ?_, List.nil_prefix, fun _ => ?_,
    fun _ u hu => ?_⟩
  · rcases hstuck with hstuck | hstuck
    · cases hstuck
    · exact hstuck rfl
  · exact ⟨[], all, [], freshRequest okSettings,
      ⟨rfl, fresh_freshRequest, rfl, rfl, by simp, rfl, rfl⟩, fun _ => rfl⟩
  · obtain rfl : u = stream all := hu
    exact ⟨⟨.fresh, [], all, ready_fresh, rfl, List.suffix_rfl⟩, show (-1 : ℤ) < 2 ^ 31 by decide⟩

/-- **What an open connection has dealt with** is told by what has arrived. -/
theorem Deals.holds (hs : String2lSpec string2l) (hall : ∀ c ∈ all, Short (2 ^ 31) c)
    (h : Deals string2l all c t) (hopen : Open c) (ht : t <+: stream all) :
    ∃ todo, all = dealt c.redisParser.log ++ todo ∧ Holds (dealt c.redisParser.log) todo t ∧
      (c.status = some .readAll → t = stream (dealt c.redisParser.log) ∧
        (batches c.redisParser.log).flatten =
          (dealt c.redisParser.log).map RedisParser.lowerName) := by
  obtain ⟨before, todo', cs, p, hsince, hcs⟩ := h.since hopen
  have hcommand : c.commandLen < 2 ^ 31 := by
    have hmax28 : c.rbufMaxLen ≤ 2 ^ 28 := h.going.inv.max
    have hlt : c.commandLen < c.rbufMaxLen ∨ c.status = none ∧ c.commandLen = 0 :=
      (h.going.carries h.stuck hopen).lt
    omega
  obtain ⟨em, rest, rfl, hlog, hh, hnil⟩ := hsince.holds hs hall hcommand ht
  rw [← hlog] at hh
  refine ⟨rest, by rw [hsince.all_eq, ← List.append_assoc, ← hlog], hh, fun hst => ?_⟩
  obtain rfl := hcs hst
  have hp : c.redisParser = p := hsince.parser
  have hlog' : dealt c.redisParser.log = before := by rw [hp]; exact hsince.log
  have hbal := hsince.fresh.balanced
  unfold Feed.Balanced at hbal
  rw [hsince.fresh.argvs, List.map_nil, List.append_nil, ← hp] at hbal
  refine ⟨?_, hbal⟩
  rw [hlog']
  simpa using hsince.arrived

/-! ### The commands of one call -/

/-- What a call of `GetRequest` passes to the callbacks: fewer commands than an `int` can count, and
one batch if it returns `kReadAll`, else none. -/
structure Delivers (c c' : RedisConn) : Prop where
  dealt : ∃ em, dealt c'.redisParser.log = dealt c.redisParser.log ++ em ∧ em.length < 2 ^ 31
  batches : ∃ bs, batches c'.redisParser.log = batches c.redisParser.log ++ bs ∧
    bs.length = if c'.status = some .readAll then 1 else 0

theorem delivers_ret {c' : RedisConn} {st : ReadStatus} (hp : c'.redisParser = c.redisParser)
    (hst : c'.status = some st) (hne : st ≠ .readAll) : Delivers c c' := by
  refine ⟨⟨[], by rw [hp, List.append_nil], by simp⟩, [], by rw [hp, List.append_nil], ?_⟩
  rw [hst, if_neg (by simpa using hne)]
  rfl

/-- The lines behind `ProcessInputBuffer`. -/
theorem delivers_processed {c' : RedisConn} {q : Req} {r : Bytes} {em : List Argv}
    (hends : Ends c.redisParser (em, .wait q r) c'.redisParser) (hlt : em.length < 2 ^ 31) :
    Delivers c c'.processed := by
  have hstands := hends.stands
  have hstatus : c'.redisParser.statusCode = if q = .fresh then .done else .half := by
    rcases q with _ | _ | _ | _ <;> exact hstands.2.1
  have hread := parseRedisParserStatus_wait hstatus
  unfold RedisConn.processed
  dsimp only
  by_cases hq : q = .fresh
  · subst hq
    rw [if_pos rfl] at hread
    rw [hread, if_pos (.inl rfl)]
    exact ⟨⟨em, hends.dealt, hlt⟩, _, hstands.2.2.2.2.2, rfl⟩
  · have hb : batches c'.redisParser.log = batches c.redisParser.log := by
      rcases q with _ | _ | _ | _
      · exact absurd rfl hq
      · exact hstands.2.2.2.2.2
      · exact hstands.2.2.2.2.2
      · exact hstands.2.2.2.2.2
    rw [if_neg hq] at hread
    rw [hread, if_pos (.inr rfl)]
    exact ⟨⟨em, hends.dealt, hlt⟩, [], by rw [List.append_nil]; exact hb, rfl⟩

/-- **What one call delivers.** -/
theorem Deals.delivers (h : Deals string2l all c t) {alloc : Bool} {r : ReadResult}
    (hp : Possible c (.getRequest alloc r)) (hopen : Open c) (hs : String2lSpec string2l)
    (hall : ∀ c ∈ all, Short (2 ^ 31) c) (ht : t ++ arriving (.getRequest alloc r) <+: stream all) :
    Delivers c (Reading.step string2l c (.getRequest alloc r)) := by
  unfold Reading.step
  rw [if_neg h.stuck]
  dsimp only
  unfold RedisConn.getRequest
  rcases hg : c.grow alloc with _ | c₁ <;> dsimp only
  · exact delivers_ret rfl rfl (by simp)
  have hc₁ : c₁.redisParser = c.redisParser := by
    unfold grow at hg
    split_ifs at hg <;> cases hg <;> rfl
  rcases r with b | _ | _ | _ <;> dsimp only
  · obtain ⟨hpos, hfit, hroom⟩ := h.room hopen hg hp ht
    obtain ⟨u, hu⟩ := ht
    obtain ⟨q, w, cmds, em, hends, hlt, hready, -, -⟩ :=
      (h.waits hopen (b ++ u) (by rw [← hu, List.append_assoc]; rfl)).call hs hall hp.1 hroom
    rw [if_neg fun ho => ho.elim (not_lt.mpr hpos) (not_lt.mpr hfit)]
    unfold RedisConn.receive
    dsimp only
    split_ifs with hfull
    · exact delivers_ret hc₁ rfl (by simp)
    · have hparser : (RedisConn.count (c₁.record (.read c.nextReadPos c.remain c₁.rbufLen))
          b.length).redisParser = c.redisParser := hc₁
      unfold RedisConn.parse
      dsimp only
      rw [hparser, if_neg (not_not.mpr hready.fault)]
      exact delivers_processed hends hlt
  · exact delivers_ret hc₁ rfl (by simp)
  · exact delivers_ret hc₁ rfl (by simp)
  · exact delivers_ret hc₁ rfl (by simp)

/-- **A read that ends where a command ends** is answered by `kReadAll`. -/
theorem Deals.readAll (h : Deals string2l all c t) {alloc : Bool} {b : Bytes}
    (hp : Possible c (.getRequest alloc (.data b))) (hopen : Open c) (hs : String2lSpec string2l)
    (hall : ∀ c ∈ all, Short (2 ^ 31) c) (ht : t ++ b <+: stream all)
    (hopen' : Open (Reading.step string2l c (.getRequest alloc (.data b))))
    (hends : t ++ b = stream
      (dealt (Reading.step string2l c (.getRequest alloc (.data b))).redisParser.log)) :
    (Reading.step string2l c (.getRequest alloc (.data b))).status = some .readAll := by
  unfold Reading.step at hopen' hends ⊢
  rw [if_neg h.stuck] at hopen' hends ⊢
  dsimp only at hopen' hends ⊢
  unfold RedisConn.getRequest at hopen' hends ⊢
  rcases hg : c.grow alloc with _ | c₁ <;> rw [hg] at hopen' hends <;> dsimp only at hopen' hends ⊢
  · exact absurd hopen' (not_open_ret (by decide) (by decide))
  obtain ⟨hpos, hfit, hroom⟩ := h.room hopen hg hp ht
  have hmax : c.rbufMaxLen ≤ 2 ^ 28 := h.going.inv.max
  have hlt := (h.going.carries h.stuck hopen).lt
  obtain ⟨n, rfl, hn, -, hmaxn⟩ := h.going.inv.grow hg
  have hlen := (h.going.inv.rbufLen hn (by omega)).len_le
  dsimp only at hfit hlen
  rw [if_neg fun ho => ho.elim (not_lt.mpr hpos) (not_lt.mpr hfit)] at hopen' hends ⊢
  unfold RedisConn.receive at hopen' hends ⊢
  dsimp only at hopen' hends ⊢
  split_ifs at hopen' hends ⊢ with hfull
  · exact absurd hopen' (not_open_ret (by decide) (by decide))
  obtain ⟨before, todo, cs, p, hsince, -⟩ := h.since hopen
  have hcommand := hsince.command
  obtain ⟨em, rest, q, r, -, -, hd, hq, -, hready, -, hret⟩ :=
    hsince.parse hs hall hp.1 (by omega) ht
  unfold RedisConn.parse at hends ⊢
  dsimp only [RedisConn.count, RedisConn.record] at hends ⊢
  rw [if_neg (not_not.mpr hready.fault)] at hends ⊢
  have hstatus := parseRedisParserStatus_wait hret.1
  -- the parser waits for a new command
  have hfresh : q = .fresh := by
    rw [hq, ← hd, hends]
    unfold RedisConn.processed
    dsimp only
    split_ifs <;> rfl
  rw [if_pos hfresh] at hstatus
  unfold RedisConn.processed
  dsimp only
  rw [hstatus]
  rfl

/-! ### Runs -/

/-- A call as an event loop makes it, with bytes that `read` can return. -/
def Called (c : RedisConn) (op : Op) : Prop := Possible c op ∧ ByLoop c op

instance (c : RedisConn) (op : Op) : Decidable (Called c op) := instDecidableAnd

theorem deals_run (hs : String2lSpec string2l) (hall : ∀ c ∈ all, Short (2 ^ 31) c) :
    ∀ (ops : List Op) {c : RedisConn} {t : Bytes}, Deals string2l all c t →
      Guarded (Reading.step string2l) Called c ops → t ++ ops.flatMap arriving <+: stream all →
      Deals string2l all (run (Reading.step string2l) c ops) (t ++ ops.flatMap arriving) := by
  intro ops
  induction ops with
  | nil =>
    intro c t h _ _
    rw [List.flatMap_nil, List.append_nil]
    exact h
  | cons op ops ih =>
    intro c t h hg ht
    rw [List.flatMap_cons, ← List.append_assoc] at ht ⊢
    exact ih (h.step hs hall hg.1.1 hg.1.2 ((List.prefix_append _ _).trans ht)) hg.2 ht

end Connection

/-- **Every command is dealt with once and in order.** However the stream arrives and whenever the
buffer is resized, no read goes beyond the buffer and the commands passed to `DealMessage` are the
first ones of the stream; as long as the connection is open they are those whose last byte has been
read. A call that reads something and leaves the connection open returns `kReadAll` exactly where a
command ends, and then all these commands have been passed to `Complete`, with their names in lower
case. -/
theorem dealt_exact {string2l : Bytes → ℕ → Option ℤ} (hs : String2lSpec string2l) {max : ℤ}
    (hmax : max ≤ REDIS_MAX_MESSAGE) (all : List Argv) (hall : ∀ c ∈ all, Short (2 ^ 31) c)
    (ops : List Op)
    (hops : Guarded (Reading.step string2l) Called (accepted max okSettings) ops)
    (ht : ops.flatMap arriving <+: stream all) :
    let c := run (Reading.step string2l) (accepted max okSettings) ops
    ¬Stuck c ∧ ∃ todo, all = dealt c.redisParser.log ++ todo ∧
      (Open c → Holds (dealt c.redisParser.log) todo (ops.flatMap arriving) ∧
        (c.status = some .readAll → ops.flatMap arriving = stream (dealt c.redisParser.log) ∧
          (batches c.redisParser.log).flatten =
            (dealt c.redisParser.log).map RedisParser.lowerName) ∧
        ∀ alloc b, ops.getLast? = some (.getRequest alloc (.data b)) →
          ops.flatMap arriving = stream (dealt c.redisParser.log) →
          c.status = some .readAll) := by
  intro c
  have h := deals_run hs hall ops (deals_accepted hmax all) hops (by rwa [List.nil_append])
  rw [List.nil_append] at h
  obtain ⟨todo, htodo⟩ := h.prefix_all
  refine ⟨h.stuck, todo, htodo.symm, fun hopen => ?_⟩
  obtain ⟨todo', htodo', hholds⟩ := h.holds hs hall hopen ht
  rw [htodo', List.append_cancel_left_eq] at htodo
  rw [htodo]
  refine ⟨hholds.1, hholds.2, fun alloc b hlast hends => ?_⟩
  -- the last call
  obtain ⟨init, rfl⟩ := List.getLast?_eq_some_iff.mp hlast
  obtain ⟨hinit, hcalled, -⟩ := guarded_append.mp hops
  have hflat : (init ++ [Op.getRequest alloc (.data b)]).flatMap arriving =
      init.flatMap arriving ++ b := by simp [arriving]
  have hrun : c = Reading.step string2l
      (run (Reading.step string2l) (accepted max okSettings) init)
      (.getRequest alloc (.data b)) := run_append _ _ _
  rw [hflat] at ht hends
  have hd := deals_run hs hall init (deals_accepted hmax all) hinit
    ((List.prefix_append _ _).trans ht)
  rw [List.nil_append] at hd
  rw [hrun] at hopen hends ⊢
  exact hd.readAll hcalled.1 hcalled.2 hs hall ht hopen hends

theorem dealt_exact_pair :
    let ops : List Op := [.getRequest true (.data (bytes "*1\r\n$4\r\nPING\r\n*2\r\n$3\r\nGE")),
      .tryResizeBuffer 3, .getRequest true .eagain,
      .getRequest true (.data (bytes "T\r\n$1\r\na\r\n"))]
    let c := run (Reading.step Wire.string2l) (accepted REDIS_MAX_MESSAGE okSettings) ops
    ¬Stuck c ∧ ∃ todo,
      [[bytes "PING"], [bytes "GET", bytes "a"]] = dealt c.redisParser.log ++ todo ∧
      (Open c → Holds (dealt c.redisParser.log) todo (ops.flatMap arriving) ∧
        (c.status = some .readAll → ops.flatMap arriving = stream (dealt c.redisParser.log) ∧
          (batches c.redisParser.log).flatten =
            (dealt c.redisParser.log).map RedisParser.lowerName) ∧
        ∀ alloc b, ops.getLast? = some (.getRequest alloc (.data b)) →
          ops.flatMap arriving = stream (dealt c.redisParser.log) →
          c.status = some .readAll) :=
  dealt_exact string2l_spec le_rfl _
    (by
      intro c hc
      simp only [List.mem_cons, List.not_mem_nil, or_false] at hc
      rcases hc with rfl | rfl <;> exact ⟨by decide, by decide +kernel⟩)
    _ (by decide +kernel) (by decide +kernel)

end Pink.Redis.Dealt
