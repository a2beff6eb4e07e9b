import Pink.Redis.Scan

/-! # The parser refines the scan

`Rep p q` says that the fields of the parser `p` hold the progress `q`, and `At buf cur len r` that
`r` is what is unread of the buffer. One call of `processInputBuffer` then does what `call` says
(`processInputBuffer_ends`): the two nested loops of the source are followed move by move, the inner
one inside a request and the outer one between requests. Callbacks are set and return `0` here. -/

namespace Pink.Redis.Refine

open Pink.Redis.Wire Pink.Redis.Split2args Pink.Redis.Parser Pink.Redis.Scan
open Pink.Redis.Parser.RedisParser

/-! ### Positions -/

/-- `r` is the unread part of the buffer. -/
structure At (buf : Bytes) (cur len : ℤ) (r : Bytes) : Prop where
  nonneg : 0 ≤ cur
  le : cur ≤ len
  len : len = buf.length
  rest : buf.drop cur.toNat = r

theorem At.sum {buf r : Bytes} {cur len : ℤ} (h : At buf cur len r) : cur + r.length = len := by
  obtain ⟨h1, h2, h3, rfl⟩ := h
  rw [List.length_drop]; omega

theorem At.drop {buf r : Bytes} {cur len : ℤ} (h : At buf cur len r) {n : ℤ} (h0 : 0 ≤ n)
    (hn : n ≤ r.length) : At buf (cur + n) len (r.drop n.toNat) := by
  have hs := h.sum
  obtain ⟨h1, h2, h3, rfl⟩ := h
  refine ⟨by omega, by omega, h3, ?_⟩
  rw [List.drop_drop]; congr 1; omega

theorem At.drop_line {buf r : Bytes} {cur len : ℤ} (h : At buf cur len r) {i : ℕ}
    (hi : r.idxOf? LF = some i) : At buf (cur + i + 1) len (r.drop (i + 1)) := by
  have hl := length_drop_idxOf? hi
  have := h.drop (n := i + 1) (by omega) (by omega)
  rw [add_assoc]; simpa using this

theorem At.peek {buf r : Bytes} {cur len : ℤ} (h : At buf cur len r) :
    peek buf cur.toNat = peek r 0 := by
  obtain ⟨-, -, -, rfl⟩ := h
  simp [Split2args.peek, List.getD_eq_getElem?_getD]

section Positions
variable {p : RedisParser} {r : Bytes} (h : At p.inputBuf p.curPos p.length r)
include h

theorem rest_eq : p.rest = r := by
  have hs := h.sum
  obtain ⟨h1, h2, h3, rfl⟩ := h
  rw [RedisParser.rest, List.take_of_length_le]
  omega

theorem findNextSeparators_eq :
    p.findNextSeparators = .ok ((r.idxOf? LF).map fun i : ℕ => p.curPos + i) := by
  rw [findNextSeparators, if_pos h.le, rest_eq h]

theorem getNextNum_eq (string2l : Bytes → ℕ → Option ℤ) (i : ℕ) :
    p.getNextNum string2l (p.curPos + i) =
      if i = 0 then .error .assertion else .ok (num string2l r i) := by
  obtain ⟨h1, h2, h3, rfl⟩ := h
  unfold getNextNum num
  by_cases hi : i = 0
  · rw [if_neg (by omega), if_pos hi]
  · rw [if_pos (by omega), if_neg hi, List.drop_drop]
    congr 3 <;> [skip; congr 1] <;> omega

end Positions

/-! ### Progress -/

/-- The fields of `p` hold the progress `q`. -/
def Rep (p : RedisParser) : Req → Prop
  | .fresh => p.redisType = .unset ∧ p.multibulkLen = 0 ∧ p.bulkLen = -1 ∧ p.argv = []
  | .inline => p.redisType = .inline ∧ p.multibulkLen = 0 ∧ p.bulkLen = -1 ∧ p.argv = []
  | .header => p.redisType = .multibulk ∧ p.multibulkLen = 0 ∧ p.bulkLen = -1 ∧ p.argv = []
  | .bulks mlen blen argv => p.redisType = .multibulk ∧ p.multibulkLen = mlen ∧ mlen ≠ 0 ∧
      p.bulkLen = blen ∧ p.argv = argv

@[simp] theorem dealt_append (l : List Event) (e : Event) : dealt (l ++ [e]) =
    dealt l ++ (match e with | .dealMessage argv => [argv] | _ => []) := by
  rw [dealt, List.filterMap_append]; cases e <;> rfl

@[simp] theorem batches_append (l : List Event) (e : Event) : batches (l ++ [e]) =
    batches l ++ (match e with | .complete argvs => [argvs] | _ => []) := by
  rw [batches, List.filterMap_append]; cases e <;> rfl

/-- What a move inside a request leaves alone. -/
structure Frame (p p' : RedisParser) : Prop where
  settings : p'.parserSettings = p.parserSettings
  ptype : p'.redisParserType = p.redisParserType
  argvs : p'.argvs = p.argvs
  length : p'.length = p.length
  dealt : dealt p'.log = dealt p.log
  batches : batches p'.log = batches p.log

/-- How the parser stands at the end `e` of a scan that has delivered `em`. -/
def Stands (p : RedisParser) (em : List Argv) (e : End) (p' : RedisParser) : Prop :=
  match e with
  | .wait .fresh _ => p'.fault = none ∧ p'.statusCode = .done ∧ Rep p' .fresh ∧ p'.halfArgv = [] ∧
      p'.argvs = [] ∧ batches p'.log = batches p.log ++ [(p.argvs ++ em).map lowerName]
  | .wait q r => p'.fault = none ∧ p'.statusCode = .half ∧ Rep p' q ∧ p'.halfArgv = r ∧
      p'.argvs = p.argvs ++ em ∧ batches p'.log = batches p.log
  | .error c => p'.fault = none ∧ p'.statusCode = .error ∧ p'.errorCode = c ∧
      batches p'.log = batches p.log
  | .fault f => p'.fault = some f ∧ batches p'.log = batches p.log

/-- From `p`, the parser has delivered `x.1` and ended at `x.2`. -/
structure Ends (p : RedisParser) (x : List Argv × End) (p' : RedisParser) : Prop where
  settings : p'.parserSettings = p.parserSettings
  ptype : p'.redisParserType = p.redisParserType
  dealt : dealt p'.log = dealt p.log ++ x.1
  stands : Stands p x.1 x.2 p'

theorem Frame.ends {p q p' : RedisParser} {x : List Argv × End} (hf : Frame p q)
    (h : Ends q x p') : Ends p x p' := by
  obtain ⟨h1, h2, h3, h4⟩ := h
  refine ⟨h1.trans hf.settings, h2.trans hf.ptype, by rw [h3, hf.dealt], ?_⟩
  unfold Stands at h4 ⊢
  rw [hf.argvs, hf.batches] at h4
  exact h4

theorem Frame.recordTurn (p : RedisParser) (loop : Loop) : Frame p (p.recordTurn loop) :=
  ⟨rfl, rfl, rfl, rfl, by simp [RedisParser.recordTurn, record],
    by simp [RedisParser.recordTurn, record]⟩

theorem Frame.trans {p p1 p2 : RedisParser} (h1 : Frame p p1) (h2 : Frame p1 p2) : Frame p p2 :=
  ⟨h2.settings.trans h1.settings, h2.ptype.trans h1.ptype, h2.argvs.trans h1.argvs,
    h2.length.trans h1.length, h2.dealt.trans h1.dealt, h2.batches.trans h1.batches⟩

/-! ### Moves inside a multibulk request -/

/-- A piece of a function's body does the move `m`. -/
def Does (p : RedisParser) (m : Move) (x : Flow) : Prop :=
  match m with
  | .wait q r => ∃ p', x = .ret p' ∧ Ends p ([], .wait q r) p'
  | .error c => ∃ p', x = .ret p' ∧ Ends p ([], .error c) p'
  | .fault f => ∃ p', x = .ret p' ∧ Ends p ([], .fault f) p'
  | .next q r => ∃ p', x = .next p' ∧ Frame p p' ∧ p'.fault = none ∧ Rep p' q ∧
      At p'.inputBuf p'.curPos p'.length r
  | .emit argv r => ∃ p', x = .next p' ∧ Frame p p' ∧ p'.fault = none ∧ p'.multibulkLen = 0 ∧
      p'.argv = argv ∧ At p'.inputBuf p'.curPos p'.length r

theorem Frame.does {p p1 : RedisParser} {m : Move} {x : Flow} (hf : Frame p p1)
    (h : Does p1 m x) : Does p m x := by
  unfold Does at h ⊢
  cases m with
  | wait q r => obtain ⟨p', h1, h2⟩ := h; exact ⟨p', h1, hf.ends h2⟩
  | error c => obtain ⟨p', h1, h2⟩ := h; exact ⟨p', h1, hf.ends h2⟩
  | fault f => obtain ⟨p', h1, h2⟩ := h; exact ⟨p', h1, hf.ends h2⟩
  | next q r => obtain ⟨p', h1, h2, h3⟩ := h; exact ⟨p', h1, hf.trans h2, h3⟩
  | emit a r => obtain ⟨p', h1, h2, h3⟩ := h; exact ⟨p', h1, hf.trans h2, h3⟩

section Moves
variable {string2l : Bytes → ℕ → Option ℤ} {p : RedisParser} {r : Bytes}

theorem ends_half {q : Req} (hq : Rep p q) (hne : q ≠ .fresh) (hf : p.fault = none)
    (h : At p.inputBuf p.curPos p.length r) : Ends p ([], .wait q r) (p.setParserStatus .half) := by
  refine ⟨rfl, rfl, by simp [setParserStatus, cacheHalfArgv], ?_⟩
  have hr := rest_eq h
  cases q with
  | fresh => exact absurd rfl hne
  | inline => exact ⟨hf, rfl, hq, hr, by simp [setParserStatus, cacheHalfArgv], rfl⟩
  | header => exact ⟨hf, rfl, hq, hr, by simp [setParserStatus, cacheHalfArgv], rfl⟩
  | bulks m b v => exact ⟨hf, rfl, hq, hr, by simp [setParserStatus, cacheHalfArgv], rfl⟩

theorem ends_error (c : RedisParserError) (hf : p.fault = none) :
    Ends p ([], .error c) (p.setParserStatus .error c) :=
  ⟨rfl, rfl, by simp [setParserStatus], hf, rfl, rfl, rfl⟩

theorem ends_fault (f : Fault) : Ends p ([], .fault f) (p.raise f) :=
  ⟨rfl, rfl, by simp [raise], rfl, rfl⟩

theorem Frame.getNextNum (p : RedisParser) (a b c : ℤ) : Frame p (p.record (.getNextNum a b c)) :=
  ⟨rfl, rfl, rfl, rfl, by simp [record], by simp [record]⟩

theorem Frame.emplaceBack (p : RedisParser) (a b c : ℤ) : Frame p (p.record (.emplaceBack a b c)) :=
  ⟨rfl, rfl, rfl, rfl, by simp [record], by simp [record]⟩

/-- `p₁` is `p` after `GetNextNum` has been called for the line of `r` that ends at `i`; the next byte
to read is behind the line. -/
structure Numbered (p : RedisParser) (q : Req) (r : Bytes) (i : ℕ) (p₁ : RedisParser) : Prop where
  frame : Frame p p₁
  rep : Rep p₁ q
  fault : p₁.fault = none
  curPos : p₁.curPos = p.curPos
  rest : At p₁.inputBuf p₁.curPos p₁.length r
  behind : At p₁.inputBuf (p₁.curPos + i + 1) p₁.length (r.drop (i + 1))

theorem numbered {q : Req} {i : ℕ} (hq : Rep p q) (hf : p.fault = none)
    (h : At p.inputBuf p.curPos p.length r) (hi : r.idxOf? LF = some i) :
    Numbered p q r i (p.record (.getNextNum p.curPos (p.curPos + i) p.length)) :=
  ⟨.getNextNum p _ _ _, by cases q <;> exact hq, hf, rfl, h, h.drop_line hi⟩

theorem Numbered.last_iff {q : Req} {i : ℕ} {p₁ : RedisParser} (h : Numbered p q r i p₁) :
    p₁.curPos + i + 1 > p₁.length - 1 ↔ r.drop (i + 1) = [] := by
  have hs := h.behind.sum
  rw [← List.length_eq_zero_iff]
  omega

theorem multibulkHeader_does (hq : Rep p .header) (hf : p.fault = none)
    (h : At p.inputBuf p.curPos p.length r) :
    Does p (headerMove string2l r) (p.multibulkHeader string2l) := by
  unfold multibulkHeader headerMove
  rw [findNextSeparators_eq h]
  rcases hi : r.idxOf? LF with _ | i
  · exact ⟨_, rfl, ends_half hq (by simp) hf h⟩
  have hN := numbered hq hf h hi
  refine hN.frame.does ?_
  generalize hp1 : p.record (.getNextNum p.curPos (p.curPos + i) p.length) = p1 at hN
  have hiff := hN.last_iff
  obtain ⟨-, hq1, hf1, hc1, h1, h2⟩ := hN
  simp only [Option.map_some, hp1]
  rw [← hc1, getNextNum_eq h1 string2l i]
  by_cases h0 : i = 0
  · rw [if_pos h0, if_pos h0]; exact ⟨_, rfl, ends_fault _⟩
  rw [if_neg h0, if_neg h0]
  rcases hv : num string2l r i with _ | v
  · exact ⟨_, rfl, ends_error _ hf1⟩
  dsimp only
  by_cases hnil : r.drop (i + 1) = []
  · rw [if_pos hnil, if_pos (hiff.mpr hnil)]
    refine ⟨_, rfl, Frame.ends (q := { p1 with
      multibulkLen := v, curPos := p1.curPos + i + 1, argv := [] })
      ⟨rfl, rfl, rfl, rfl, rfl, rfl⟩ ?_⟩
    rw [hnil] at h2
    obtain ⟨q1, q2, q3, q4⟩ := hq1
    refine ends_half ?_ (by split_ifs <;> simp) hf1 h2
    split_ifs with hv0
    · exact ⟨q1, hv0, q3, rfl⟩
    · exact ⟨q1, rfl, hv0, q3, rfl⟩
  · rw [if_neg hnil, if_neg (mt hiff.mp hnil)]
    obtain ⟨q1, q2, q3, q4⟩ := hq1
    split_ifs with hv0
    · exact ⟨_, rfl, ⟨rfl, rfl, rfl, rfl, rfl, rfl⟩, hf1, hv0, rfl, h2⟩
    · exact ⟨_, rfl, ⟨rfl, rfl, rfl, rfl, rfl, rfl⟩, hf1, ⟨q1, rfl, hv0, q3, rfl⟩, h2⟩

theorem takeBulk_does {m b : ℤ} {v : Argv} (hq : Rep p (.bulks m b v)) (hf : p.fault = none)
    (h : At p.inputBuf p.curPos p.length r) : Does p (payloadMove m b v r) p.takeBulk := by
  have hs := h.sum
  have hq' := hq
  obtain ⟨q1, q2, q3, q4, q5⟩ := hq
  unfold takeBulk payloadMove
  rw [q4]
  by_cases h1 : b + 2 > LONG_MAX
  · rw [if_pos h1, if_pos h1]; exact ⟨_, rfl, ends_fault _⟩
  rw [if_neg h1, if_neg h1]
  have hrem : p.length - 1 - p.curPos + 1 < b + 2 ↔ (r.length : ℤ) < b + 2 := by omega
  by_cases h2 : (r.length : ℤ) < b + 2
  · rw [if_pos h2, if_pos (hrem.mpr h2)]
    refine ⟨_, rfl, ?_⟩
    rw [multibulkExit, if_neg (by rw [q2]; exact q3)]
    exact ends_half hq' (by simp) hf h
  rw [if_neg h2, if_neg (mt hrem.mp h2)]
  refine (Frame.emplaceBack p p.curPos b p.length).does ?_
  simp only [record, q4, q2, q5, h.rest]
  by_cases h3 : b < 0
  · rw [if_pos h3, if_pos h3]; exact ⟨_, rfl, ends_fault _⟩
  rw [if_neg h3, if_neg h3]
  by_cases h4 : m = LONG_MIN
  · rw [if_pos h4, if_pos h4]; exact ⟨_, rfl, ends_fault _⟩
  rw [if_neg h4, if_neg h4]
  have hd := h.drop (n := b + 2) (by omega) (by omega)
  rw [← add_assoc] at hd
  by_cases h5 : m - 1 = 0
  · rw [if_pos h5]
    exact ⟨_, rfl, ⟨rfl, rfl, rfl, rfl, rfl, rfl⟩, hf, h5, rfl, hd⟩
  · rw [if_neg h5]
    exact ⟨_, rfl, ⟨rfl, rfl, rfl, rfl, rfl, rfl⟩, hf, ⟨q1, rfl, h5, rfl, rfl⟩, hd⟩

theorem bulkTurn_does {m b : ℤ} {v : Argv} (hq : Rep p (.bulks m b v)) (hf : p.fault = none)
    (h : At p.inputBuf p.curPos p.length r) :
    Does p (bulkMove string2l m b v r) (p.bulkTurn string2l) := by
  have hq' := hq
  obtain ⟨q1, q2, q3, q4, q5⟩ := hq
  unfold bulkTurn bulkMove
  rw [q4]
  by_cases hb : b = -1
  swap
  · rw [if_neg hb, if_neg hb]; exact takeBulk_does hq' hf h
  rw [if_pos hb, if_pos hb]
  unfold bulkHeader
  rw [findNextSeparators_eq h, h.peek]
  rcases hi : r.idxOf? LF with _ | i
  · exact ⟨_, rfl, ends_half hq' (by simp) hf h⟩
  simp only [Option.map_some]
  by_cases hd : peek r 0 ≠ ch '$'
  · rw [if_pos hd, if_pos hd]; exact ⟨_, rfl, ends_error _ hf⟩
  rw [if_neg hd, if_neg hd]
  have hN := numbered hq' hf h hi
  refine hN.frame.does ?_
  generalize hp1 : p.record (.getNextNum p.curPos (p.curPos + i) p.length) = p1 at hN
  have hiff := hN.last_iff
  obtain ⟨-, hq1, hf1, hc1, h1, h2⟩ := hN
  have h0 : i ≠ 0 := by
    -- the line is not empty: it starts with a dollar
    rintro rfl
    obtain ⟨hlt, he, -⟩ := List.idxOf?_eq_some_iff.mp hi
    apply hd
    rw [peek, List.getD_eq_getElem?_getD, List.getElem?_eq_getElem hlt, he]
    decide
  rw [← hc1, getNextNum_eq h1 string2l i, if_neg h0]
  rcases hv : num string2l r i with _ | n
  · exact ⟨_, rfl, ends_error _ hf1⟩
  obtain ⟨q1, q2, q3, q4, q5⟩ := hq1
  have hfr : Frame p1 { p1 with bulkLen := n, curPos := p1.curPos + i + 1 } :=
    ⟨rfl, rfl, rfl, rfl, rfl, rfl⟩
  have hq2 : Rep { p1 with bulkLen := n, curPos := p1.curPos + i + 1 } (.bulks m n v) :=
    ⟨q1, q2, q3, rfl, q5⟩
  dsimp only
  by_cases hnil : r.drop (i + 1) = []
  · rw [if_pos hnil, if_pos (hiff.mpr hnil)]
    rw [hnil] at h2
    exact ⟨_, rfl, hfr.ends (ends_half hq2 (by simp) hf1 h2)⟩
  · rw [if_neg hnil, if_neg (mt hiff.mp hnil)]
    exact hfr.does (takeBulk_does hq2 hf1 h2)

end Moves

/-! ### The loops -/

section Loops
variable {string2l : Bytes → ℕ → Option ℤ}

/-- What the outer loop does with the end of a turn. -/
def goOn (string2l : Bytes → ℕ → Option ℤ) (k : ℕ) : Flow → RedisParser
  | .ret p => p
  | .next p => p.requestLoop string2l k

theorem requestLoop_succ (k : ℕ) (p : RedisParser) : p.requestLoop string2l (k + 1) =
    if p.curPos ≤ p.length - 1 then goOn string2l k (p.requestTurn string2l) else p.complete := by
  rw [requestLoop]
  split_ifs
  · rcases p.requestTurn string2l with p' | p' <;> rfl
  · rfl

/-- A move that ends the scan ends the call. -/
theorem goOn_ended {p p' : RedisParser} {e : End} {k : ℕ} (h : Ends p ([], e) p')
    (hne : ∀ r, e ≠ .wait .fresh r) : Ends p ([], e) (goOn string2l k p'.afterRequest) := by
  have hret : p'.afterRequest = .ret p' := by
    rw [afterRequest, if_pos]
    obtain ⟨-, -, -, h4⟩ := h
    rcases e with ⟨_ | _ | _ | _, r⟩ | c | f
    · exact absurd rfl (hne r)
    · exact .inr (by rw [h4.2.1]; simp)
    · exact .inr (by rw [h4.2.1]; simp)
    · exact .inr (by rw [h4.2.1]; simp)
    · exact .inr (by rw [h4.2.1]; simp)
    · exact .inl (by rw [h4.1]; simp)
  rw [hret]; exact h

theorem deliver_ok {p : RedisParser} (hset : p.parserSettings = okSettings) (ha : p.argv ≠ []) :
    p.deliver = .next (resetCommandStatus
      (record { p with argvs := p.argvs ++ [p.argv], argv := [] } (.dealMessage p.argv))) := by
  have hd : p.parserSettings.dealMessage = some fun _ _ => 0 := by rw [hset]; rfl
  unfold RedisParser.deliver
  rw [if_neg ha]
  simp only [hd, ne_eq, not_true_eq_false, if_false]

/-- A completed request is delivered, and the outer loop goes on with a fresh one. -/
theorem goOn_emit {p : RedisParser} {x : List Argv × End} {k : ℕ}
    (hset : p.parserSettings = okSettings) (hst : p.statusCode = .done) (hf : p.fault = none)
    (ih : ∀ p1 : RedisParser, p1.parserSettings = okSettings → p1.fault = none → Rep p1 .fresh →
      p1.halfArgv = [] → p1.inputBuf = p.inputBuf → p1.curPos = p.curPos → p1.length = p.length →
      Ends p1 x (p1.requestLoop string2l k)) :
    Ends p (Scan.deliver p.argv x) (goOn string2l k p.afterRequest) := by
  have hgo : p.afterRequest = p.deliver := by rw [afterRequest, if_neg (by simp [hst, hf])]
  rw [hgo, Scan.deliver]
  by_cases ha : p.argv = []
  · rw [RedisParser.deliver, if_pos ha, if_pos ha]
    refine Frame.ends (q := p.resetCommandStatus) ⟨rfl, rfl, rfl, rfl, rfl, rfl⟩ ?_
    exact ih _ hset hf ⟨rfl, rfl, rfl, ha⟩ rfl rfl rfl rfl
  rw [deliver_ok hset ha, if_neg ha]
  obtain ⟨e1, e2, e3, e4⟩ := ih (resetCommandStatus
    (record { p with argvs := p.argvs ++ [p.argv], argv := [] } (.dealMessage p.argv)))
    hset hf ⟨rfl, rfl, rfl, rfl⟩ rfl rfl rfl rfl
  refine ⟨e1, e2, ?_, ?_⟩
  · rw [goOn, e3]; simp [resetCommandStatus, record]
  · rcases x with ⟨em, ⟨_ | _ | _ | _, r⟩ | c | f⟩ <;>
      simpa [goOn, Stands, resetCommandStatus, record] using e4

theorem complete_ends {p : RedisParser} (hset : p.parserSettings = okSettings)
    (hf : p.fault = none) (hq : Rep p .fresh) (hh : p.halfArgv = []) :
    Ends p ([], .wait .fresh []) p.complete := by
  have hd : p.parserSettings.complete = some fun _ _ => 0 := by rw [hset]; rfl
  unfold RedisParser.complete
  simp only [hd, ne_eq, not_true_eq_false, if_false]
  refine ⟨rfl, rfl, by simp [setParserStatus, record], hf, rfl, hq, hh, rfl, ?_⟩
  simp [setParserStatus, record]

theorem payloadMove_next {m b : ℤ} {v : Argv} {r r' : Bytes} {q : Req}
    (h : payloadMove m b v r = .next q r') : ∃ m' v', q = .bulks m' (-1) v' := by
  unfold payloadMove at h
  split_ifs at h
  cases h; exact ⟨_, _, rfl⟩

theorem bulkMove_next {m b : ℤ} {v : Argv} {r r' : Bytes} {q : Req}
    (h : bulkMove string2l m b v r = .next q r') : ∃ m' v', q = .bulks m' (-1) v' := by
  rcases bulkMove_cases string2l m b v r with ⟨q', s, e⟩ | ⟨c, e⟩ | ⟨w, s, e, -⟩ <;>
    rw [e] at h
  · cases h
  · cases h
  · exact payloadMove_next h

/-- What a terminal move of a multibulk request waits for is the rest of it. -/
theorem bulkMove_wait {m b : ℤ} {v : Argv} {r r' : Bytes} {q : Req}
    (h : bulkMove string2l m b v r = .wait q r') : q ≠ .fresh := by
  unfold bulkMove payloadMove at h
  rintro rfl
  split at h
  · split at h
    · cases h
    · split at h
      · cases h
      · split at h
        · cases h
        · split_ifs at h <;> cases h
  · split_ifs at h; cases h

theorem headerMove_wait {r r' : Bytes} {q : Req} (h : headerMove string2l r = .wait q r') :
    q ≠ .fresh := by
  unfold headerMove at h
  rintro rfl
  split at h
  · cases h
  · split at h
    · cases h
    · split at h
      · cases h
      · split_ifs at h <;> cases h

/-- The statement about the outer loop. -/
def OuterEnds (string2l : Bytes → ℕ → Option ℤ) (n : ℕ) : Prop :=
  ∀ (p : RedisParser) (r : Bytes) (q : Req) (k : ℕ), r.length < n → r.length < k →
    p.parserSettings = okSettings → p.fault = none → Rep p q →
    (r = [] → q = .fresh ∧ p.halfArgv = []) → At p.inputBuf p.curPos p.length r →
    Ends p (scan string2l p.length n q r) (p.requestLoop string2l k)

/-- The statement about the inner loop, with the rest of the outer one behind it. -/
def InnerEnds (string2l : Bytes → ℕ → Option ℤ) (n : ℕ) : Prop :=
  ∀ (p : RedisParser) (r : Bytes) (m b : ℤ) (v : Argv) (k j : ℕ), r.length < n → r.length ≤ k →
    r.length < j → p.parserSettings = okSettings → p.fault = none → Rep p (.bulks m b v) →
    At p.inputBuf p.curPos p.length r →
    Ends p (scan string2l p.length n (.bulks m b v) r)
      (goOn string2l k (p.multibulkLoop string2l j).afterRequest)

/-- All arguments are read: the inner loop ends, and the outer one goes on. -/
theorem inner_exit {n : ℕ} (hout : OuterEnds string2l n) {p : RedisParser} {r : Bytes} {k j : ℕ}
    (hn : r.length < n) (hk : r.length < k) (hj : 0 < j) (hset : p.parserSettings = okSettings)
    (hf : p.fault = none) (hm : p.multibulkLen = 0) (h : At p.inputBuf p.curPos p.length r) :
    Ends p (Scan.deliver p.argv (scan string2l p.length n .fresh r))
      (goOn string2l k (p.multibulkLoop string2l j).afterRequest) := by
  obtain ⟨j, rfl⟩ := Nat.exists_eq_add_of_lt hj
  have hl : p.multibulkLoop string2l (0 + j + 1) =
      (p.recordTurn .multibulk).setParserStatus .done := by
    simp only [multibulkLoop]
    rw [if_pos (show (p.recordTurn .multibulk).multibulkLen = 0 from hm), multibulkExit,
      if_pos (show (p.recordTurn .multibulk).multibulkLen = 0 from hm)]
  rw [hl]
  have hF : Frame p ((p.recordTurn .multibulk).setParserStatus .done) :=
    (Frame.recordTurn p .multibulk).trans ⟨rfl, rfl, rfl, rfl, rfl, rfl⟩
  refine hF.ends ?_
  refine goOn_emit (p := (p.recordTurn .multibulk).setParserStatus .done) hset rfl hf ?_
  intro p1 hset1 hf1 hq1 hh1 hb1 hc1 hl1
  have h1 : At p1.inputBuf p1.curPos p1.length r := by rw [hb1, hc1, hl1]; exact h
  have hlen : p1.length = p.length := hl1
  rw [← hlen]
  exact hout p1 r .fresh k hn hk hset1 hf1 hq1 (fun _ => ⟨rfl, hh1⟩) h1

theorem inner_succ {n : ℕ} (hout : OuterEnds string2l n) (hin : InnerEnds string2l n) :
    InnerEnds string2l (n + 1) := by
  intro p r m b v k j hn hk hj hset hf hq h
  obtain ⟨j, rfl⟩ : ∃ j', j = j' + 1 := ⟨j - 1, by omega⟩
  have hm : ¬ (p.recordTurn .multibulk).multibulkLen = 0 := by
    obtain ⟨-, q2, q3, -⟩ := hq; rw [← q2] at q3; exact q3
  have hD : Does (p.recordTurn .multibulk) (bulkMove string2l m b v r)
      ((p.recordTurn .multibulk).bulkTurn string2l) :=
    bulkTurn_does (show Rep (p.recordTurn .multibulk) _ from hq) hf h
  have hF := Frame.recordTurn p .multibulk
  have hstep : step string2l p.length (.bulks m b v) r = bulkMove string2l m b v r := rfl
  simp only [multibulkLoop, if_neg hm, scan, reduceCtorEq, false_and, if_false, hstep]
  refine hF.ends ?_
  rcases hmv : bulkMove string2l m b v r with ⟨q', r'⟩ | c | f | ⟨q', r'⟩ | ⟨a, r'⟩ <;>
    rw [hmv] at hD
  · obtain ⟨p', hx, hE⟩ := hD
    rw [hx]
    exact goOn_ended hE (fun s hs => bulkMove_wait hmv (by cases hs; rfl))
  · obtain ⟨p', hx, hE⟩ := hD
    rw [hx]; exact goOn_ended hE (by simp)
  · obtain ⟨p', hx, hE⟩ := hD
    rw [hx]; exact goOn_ended hE (by simp)
  · obtain ⟨p', hx, hF', hf', hq', h'⟩ := hD
    have hlt := step_next_shorter (hstep.trans hmv)
    obtain ⟨m', v', rfl⟩ := bulkMove_next hmv
    rw [hx]
    have hlen : p'.length = p.length := hF'.length
    dsimp only
    rw [← hlen]
    exact hF'.ends (hin p' r' m' (-1) v' k j (by omega) (by omega) (by omega)
      (hF'.settings.trans hset) hf' hq' h')
  · obtain ⟨p', hx, hF', hf', hm', ha', h'⟩ := hD
    have hlt := step_emit_shorter (hstep.trans hmv)
    rw [hx]
    have hlen : p'.length = p.length := hF'.length
    dsimp only
    rw [← hlen, ← ha']
    exact hF'.ends (inner_exit hout (by omega) (by omega) (by omega)
      (hF'.settings.trans hset) hf' hm' h')

theorem setRedisType_rep {p : RedisParser} {q : Req} {r : Bytes} (hq : Rep p q)
    (h : At p.inputBuf p.curPos p.length r) : Rep p.setRedisType (settle q r) := by
  unfold setRedisType settle
  rw [h.peek]
  cases q with
  | fresh =>
    obtain ⟨q1, q2, q3, q4⟩ := hq
    rw [if_neg (by simp [q1])]
    by_cases hc : peek r 0 = ch '*'
    · rw [if_pos hc]; dsimp only; rw [if_pos hc]; exact ⟨rfl, q2, q3, q4⟩
    · rw [if_neg hc]; dsimp only; rw [if_neg hc]; exact ⟨rfl, q2, q3, q4⟩
  | inline => rw [if_pos (by rw [hq.1]; simp)]; exact hq
  | header => rw [if_pos (by rw [hq.1]; simp)]; exact hq
  | bulks m b v => rw [if_pos (by rw [hq.1]; simp)]; exact hq

theorem setRedisType_frame (p : RedisParser) : Frame p p.setRedisType ∧
    p.setRedisType.fault = p.fault ∧ p.setRedisType.inputBuf = p.inputBuf ∧
    p.setRedisType.curPos = p.curPos := by
  unfold setRedisType
  split_ifs <;> exact ⟨⟨rfl, rfl, rfl, rfl, rfl, rfl⟩, rfl, rfl, rfl⟩

/-- A turn of the outer loop on an inline request. -/
theorem inline_ends {n : ℕ} (hout : OuterEnds string2l n) {p : RedisParser} {r : Bytes} {k : ℕ}
    (hn : r.length ≤ n) (hk : r.length ≤ k) (hset : p.parserSettings = okSettings)
    (hf : p.fault = none) (hq : Rep p .inline) (h : At p.inputBuf p.curPos p.length r) :
    Ends p
      (match inlineMove p.length r with
        | .wait q r => ([], .wait q r)
        | .error e => ([], .error e)
        | .fault f => ([], .fault f)
        | .next q r => scan string2l p.length n q r
        | .emit argv r => Scan.deliver argv (scan string2l p.length n .fresh r))
      (goOn string2l k p.processInlineBuffer.afterRequest) := by
  unfold inlineMove processInlineBuffer
  rw [findNextSeparators_eq h, h.rest]
  rcases hi : r.idxOf? LF with _ | i
  · simp only [Option.map_none]
    by_cases hl : p.length > REDIS_INLINE_MAXLEN
    · rw [if_pos hl, if_pos hl]; exact goOn_ended (ends_error _ hf) (by simp)
    · rw [if_neg hl, if_neg hl]; exact goOn_ended (ends_half hq (by simp) hf h) (by simp)
  simp only [Option.map_some]
  have h1 := h.drop_line hi
  have hlt := length_drop_idxOf? hi
  rcases hs : split2args r with _ | argv
  · refine goOn_ended (Frame.ends (q := { p with argv := [], curPos := p.curPos + i + 1 })
      ⟨rfl, rfl, rfl, rfl, rfl, rfl⟩ (ends_error _ hf)) (by simp)
  · refine Frame.ends (q := { p with argv := argv, curPos := p.curPos + i + 1 }.setParserStatus
      .done) ⟨rfl, rfl, rfl, rfl, rfl, rfl⟩ ?_
    refine goOn_emit (p := { p with argv := argv, curPos := p.curPos + i + 1 }.setParserStatus
      .done) hset rfl hf ?_
    intro p1 hset1 hf1 hq1 hh1 hb1 hc1 hl1
    have h2 : At p1.inputBuf p1.curPos p1.length (r.drop (i + 1)) := by
      rw [hb1, hc1, hl1]; exact h1
    have hlen : p1.length = p.length := hl1
    rw [← hlen]
    exact hout p1 _ .fresh k (by omega) (by omega) hset1 hf1 hq1 (fun _ => ⟨rfl, hh1⟩) h2

/-- A turn of the outer loop on a multibulk request whose header is not read. -/
theorem header_ends {n : ℕ} (hout : OuterEnds string2l n) (hin : InnerEnds string2l n)
    {p : RedisParser} {r : Bytes} {k : ℕ} (hn : r.length ≤ n) (hk : r.length ≤ k)
    (hset : p.parserSettings = okSettings) (hf : p.fault = none) (hq : Rep p .header)
    (h : At p.inputBuf p.curPos p.length r) :
    Ends p
      (match headerMove string2l r with
        | .wait q r => ([], .wait q r)
        | .error e => ([], .error e)
        | .fault f => ([], .fault f)
        | .next q r => scan string2l p.length n q r
        | .emit argv r => Scan.deliver argv (scan string2l p.length n .fresh r))
      (goOn string2l k (p.processMultibulkBuffer string2l).afterRequest) := by
  have hD : Does p (headerMove string2l r) (p.multibulkHeader string2l) :=
    multibulkHeader_does hq hf h
  unfold processMultibulkBuffer
  rw [if_pos hq.2.1]
  rcases hmv : headerMove string2l r with ⟨q', r'⟩ | c | f | ⟨q', r'⟩ | ⟨a, r'⟩ <;> rw [hmv] at hD
  · obtain ⟨p', hx, hE⟩ := hD
    rw [hx]
    exact goOn_ended hE (fun s hs => headerMove_wait hmv (by cases hs; rfl))
  · obtain ⟨p', hx, hE⟩ := hD
    rw [hx]; exact goOn_ended hE (by simp)
  · obtain ⟨p', hx, hE⟩ := hD
    rw [hx]; exact goOn_ended hE (by simp)
  · obtain ⟨p', hx, hF', hf', hq', h'⟩ := hD
    obtain ⟨i, v, hi, -, -, -, -, rfl, rfl⟩ := headerMove_next hmv
    have hlt := length_drop_idxOf? hi
    have hsum := h'.sum
    have hnn := h'.nonneg
    rw [hx]
    have hlen : p'.length = p.length := hF'.length
    dsimp only
    rw [← hlen]
    exact hF'.ends (hin p' _ v (-1) [] k _ (by omega) (by omega) (by omega)
      (hF'.settings.trans hset) hf' hq' h')
  · obtain ⟨p', hx, hF', hf', hm', ha', h'⟩ := hD
    obtain ⟨i, hi, -, -, -, -, rfl⟩ := headerMove_emit hmv
    have hlt := length_drop_idxOf? hi
    rw [hx]
    have hlen : p'.length = p.length := hF'.length
    dsimp only
    rw [← hlen, ← ha']
    exact hF'.ends (inner_exit hout (by omega) (by omega) (by omega)
      (hF'.settings.trans hset) hf' hm' h')

theorem outer_succ {n : ℕ} (hout : OuterEnds string2l n) (hin : InnerEnds string2l n) :
    OuterEnds string2l (n + 1) := by
  intro p r q k hn hk hset hf hq hnil h
  obtain ⟨k, rfl⟩ : ∃ k', k = k' + 1 := ⟨k - 1, by omega⟩
  have hsum := h.sum
  rw [requestLoop_succ]
  by_cases hr : r = []
  · obtain ⟨rfl, hh⟩ := hnil hr
    subst hr
    rw [if_neg (by simp at hsum; omega)]
    simpa [scan] using complete_ends hset hf hq hh
  have hpos : 0 < r.length := List.length_pos_iff.mpr hr
  rw [if_pos (by omega), scan, if_neg (by simp [hr]), requestTurn]
  obtain ⟨hF, hf1, hb1, hc1⟩ := setRedisType_frame (p.recordTurn .request)
  have hq1 : Rep (p.recordTurn .request).setRedisType (settle q r) :=
    setRedisType_rep (p := p.recordTurn .request) hq h
  have hF1 := (Frame.recordTurn p .request).trans hF
  have h1 : At (p.recordTurn .request).setRedisType.inputBuf
      (p.recordTurn .request).setRedisType.curPos
      (p.recordTurn .request).setRedisType.length r := by
    rw [hb1, hc1, hF.length]; exact h
  have hset1 := hF1.settings.trans hset
  have hlen := hF1.length
  have hf2 := hf1.trans hf
  refine hF1.ends ?_
  generalize (p.recordTurn .request).setRedisType = p1 at *
  unfold step
  rw [← hlen]
  rcases hs : settle q r with _ | _ | _ | ⟨m, b, v⟩ <;> rw [hs] at hq1
  · -- a request with a byte has a type
    unfold settle at hs
    split at hs
    · split_ifs at hs
    · rename_i hne; exact absurd hs hne
  · rw [if_pos hq1.1]
    exact inline_ends hout (by omega) (by omega) hset1 hf2 hq1 h1
  · rw [if_neg (by rw [hq1.1]; simp)]
    exact header_ends hout hin (by omega) (by omega) hset1 hf2 hq1 h1
  · have hne : ¬ p1.multibulkLen = 0 := by rw [hq1.2.1]; exact hq1.2.2.1
    rw [if_neg (by rw [hq1.1]; simp), processMultibulkBuffer, if_neg hne]
    have hsum1 := h1.sum
    have hnn := h1.nonneg
    have := inner_succ hout hin p1 r m b v k (p1.length.toNat + 1) hn (by omega) (by omega) hset1
      hf2 hq1 h1
    rwa [scan, if_neg (by simp)] at this

variable (string2l) in
theorem loops_end : ∀ n, OuterEnds string2l n ∧ InnerEnds string2l n
  | 0 => ⟨fun _ _ _ _ h => by omega, fun _ _ _ _ _ _ _ h => by omega⟩
  | n + 1 =>
    have ih := loops_end n
    ⟨outer_succ ih.1 ih.2, inner_succ ih.1 ih.2⟩

end Loops

/-! ### A call -/

/-- The parser stands between two calls: it has the progress `q` and keeps the bytes `h`. -/
structure Ready (p : RedisParser) (q : Req) (h : Bytes) : Prop where
  settings : p.parserSettings = okSettings
  ptype : p.redisParserType = .request
  status : p.statusCode = .initDone ∨ p.statusCode = .half ∨ p.statusCode = .done
  fault : p.fault = none
  cur : p.curPos = 0
  rep : Rep p q
  half : p.halfArgv = h

theorem ready_fresh : Ready (freshRequest okSettings) .fresh [] :=
  ⟨rfl, rfl, .inl rfl, rfl, rfl, ⟨rfl, rfl, rfl, rfl⟩, rfl⟩

theorem processInputBuffer_eq {string2l : Bytes → ℕ → Option ℤ} {p : RedisParser} {q : Req}
    {h : Bytes} (hp : Ready p q h) (c : Bytes) {len : ℤ}
    (hlen : toInt32 (p.halfArgv ++ c).length = len) : p.processInputBuffer string2l c =
      (processRequestBuffer string2l
        { p with inputBuf := p.halfArgv ++ c, length := len }).resetRedisParser := by
  subst hlen
  unfold processInputBuffer
  rw [if_neg (by simp [hp.fault]), if_pos hp.status]
  have hpt := hp.ptype
  dsimp only
  split
  · rfl
  · simp_all
  · simp_all

/-- **One call does what `call` says.** -/
theorem processInputBuffer_ends (string2l : Bytes → ℕ → Option ℤ) {p : RedisParser} {q : Req}
    {h c : Bytes} (hp : Ready p q h) (hc : c ≠ []) (hlen : (h ++ c).length < 2 ^ 31) :
    Ends p (call string2l q (h ++ c)) (p.processInputBuffer string2l c) := by
  obtain rfl := hp.half
  rw [processInputBuffer_eq hp c (toInt32_of_lt hlen)]
  have hat : At (p.halfArgv ++ c) p.curPos (p.halfArgv ++ c).length (p.halfArgv ++ c) := by
    rw [hp.cur]; exact ⟨le_rfl, by omega, rfl, rfl⟩
  have hrep : Rep { p with inputBuf := p.halfArgv ++ c, length := (p.halfArgv ++ c).length } q := by
    have := hp.rep
    cases q <;> exact this
  have hE : Ends { p with inputBuf := p.halfArgv ++ c, length := (p.halfArgv ++ c).length }
      (scan string2l (p.halfArgv ++ c).length ((p.halfArgv ++ c).length + 1) q (p.halfArgv ++ c))
      (processRequestBuffer string2l
        { p with inputBuf := p.halfArgv ++ c, length := (p.halfArgv ++ c).length }) :=
    (loops_end string2l ((p.halfArgv ++ c).length + 1)).1 _
      (p.halfArgv ++ c) q (((p.halfArgv ++ c).length : ℤ).toNat + 1) (by omega) (by omega)
      hp.settings hp.fault hrep (fun hnil => by simp [hc] at hnil) hat
  generalize processRequestBuffer string2l _ = p' at hE ⊢
  obtain ⟨e1, e2, e3, e4⟩ := hE
  refine ⟨e1, e2, e3, ?_⟩
  unfold call
  rcases hx : scan string2l ((p.halfArgv ++ c).length : ℤ) ((p.halfArgv ++ c).length + 1) q
    (p.halfArgv ++ c) with ⟨em, ⟨_ | _ | _ | _, r⟩ | e | f⟩ <;> rw [hx] at e4 <;> exact e4

/-- After a call that waits the parser is ready for the next one. -/
theorem Ready.next {string2l : Bytes → ℕ → Option ℤ} {p : RedisParser} {q q' : Req}
    {h c r : Bytes} {em : List Argv} (hp : Ready p q h)
    (hE : Ends p (em, .wait q' r) (p.processInputBuffer string2l c)) (hr : q' = .fresh → r = []) :
    Ready (p.processInputBuffer string2l c) q' r := by
  obtain ⟨e1, e2, -, e4⟩ := hE
  have hcur : (p.processInputBuffer string2l c).curPos = 0 := by
    rw [processInputBuffer_eq hp c rfl]; rfl
  cases q' with
  | fresh =>
    obtain ⟨f1, f2, f3, f4, -⟩ := e4
    exact ⟨e1.trans hp.settings, e2.trans hp.ptype, .inr (.inr f2), f1, hcur, f3,
      by rw [f4, hr rfl]⟩
  | inline =>
    obtain ⟨f1, f2, f3, f4, -⟩ := e4
    exact ⟨e1.trans hp.settings, e2.trans hp.ptype, .inr (.inl f2), f1, hcur, f3, f4⟩
  | header =>
    obtain ⟨f1, f2, f3, f4, -⟩ := e4
    exact ⟨e1.trans hp.settings, e2.trans hp.ptype, .inr (.inl f2), f1, hcur, f3, f4⟩
  | bulks m b v =>
    obtain ⟨f1, f2, f3, f4, -⟩ := e4
    exact ⟨e1.trans hp.settings, e2.trans hp.ptype, .inr (.inl f2), f1, hcur, f3, f4⟩

end Pink.Redis.Refine
