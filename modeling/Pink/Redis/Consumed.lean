import Pink.Redis.Limit

/-! # What the parser has consumed

Every byte fed to the parser is consumed once, in order, or kept in `half_argv_`. `Takes` is one move
of the scan with the bytes that it takes off the front of the unread ones, `Moves` a sequence of them,
and `Reads` the reading of a sequence of chunks, in which every call goes on at the progress and with
the bytes that the last one has left. `Progresses` says of one call that every turn of its loop moves
on in the buffer and that it returns, and `Accounted` that the bytes fed are those read and those kept.

The lengths announced are in range throughout (`Admissible`). Even then a call can fail: an empty
multibulk request at the end of a buffer leaves the request type behind, and a line feed that comes
next is an empty header line, at which `GetNextNum` asserts. -/

namespace Pink.Redis.Consumed

open Pink.Redis.Wire Pink.Redis.Split2args Pink.Redis.Parser Pink.Redis.Parser.RedisParser
open Pink.Redis.Scan Pink.Redis.Refine Pink.Redis.Fragment Pink.Redis.Callbacks Pink.Lib.Runs
open Pink.Redis.Limit (progress progress_of_rep processInputBuffer_error)

variable (string2l : Bytes → ℕ → Option ℤ)

/-! ### Reading a stream -/

/-- One move takes `piece` off the front of `r`. -/
def Takes (len : ℤ) (q : Req) (r piece : Bytes) (q' : Req) (r' : Bytes) : Prop :=
  r = piece ++ r' ∧ (step string2l len q r = .wait q' r' ∨ step string2l len q r = .next q' r' ∨
    q' = .fresh ∧ ∃ argv, step string2l len q r = .emit argv r')

/-- A sequence of moves, with the pieces that they take. -/
inductive Moves (len : ℤ) : Req → Bytes → List Bytes → Req → Bytes → Prop
  | none (q : Req) (r : Bytes) : Moves len q r [] q r
  | move {q q₁ q₂ : Req} {r r₁ r₂ piece : Bytes} {ps : List Bytes} :
      Takes string2l len q r piece q₁ r₁ → Moves len q₁ r₁ ps q₂ r₂ →
      Moves len q r (piece :: ps) q₂ r₂

/-- **The reading of the chunks `cs`**: the pieces taken so far, the progress, and the bytes kept. -/
inductive Reads : List Bytes → List Bytes → Req → Bytes → Prop
  | start : Reads [] [] .fresh []
  | call {cs ps ps' : List Bytes} {q q' : Req} {h h' c : Bytes} : Reads cs ps q h →
      Moves string2l (h ++ c).length q (h ++ c) ps' q' h' → Reads (cs ++ [c]) (ps ++ ps') q' h'

/-- **The bytes fed are accounted for**: what is kept is what has not been taken, and nothing is kept
between two requests. -/
structure Accounted (cs : List Bytes) (p : RedisParser) : Prop where
  half : p.statusCode = .half → ∃ ps, Reads string2l cs ps (progress p) p.halfArgv ∧
    cs.flatten = ps.flatten ++ p.halfArgv
  done : p.statusCode = .done → p.halfArgv = [] ∧
    ∃ ps, Reads string2l cs ps .fresh [] ∧ cs.flatten = ps.flatten

/-! ### One call -/

/-- The states in which `ProcessInputBuffer` reads its input. -/
def Accepts (p : RedisParser) : Prop :=
  p.fault = none ∧ (p.statusCode = .initDone ∨ p.statusCode = .half ∨ p.statusCode = .done)

instance (p : RedisParser) : Decidable (Accepts p) := instDecidableAnd

/-- The parser with the buffer of a call. -/
def entered (p : RedisParser) (c : Bytes) : RedisParser :=
  { p with inputBuf := p.halfArgv ++ c, length := toInt32 (p.halfArgv ++ c).length }

/-- The states at the head of the loop of `ProcessRequestBuffer` in a call. -/
inductive Head (p : RedisParser) (c : Bytes) : RedisParser → Prop
  | start : Accepts p → Head p c (entered p c)
  | turn {s s' : RedisParser} : Head p c s → s.curPos ≤ s.length - 1 →
      s.requestTurn string2l = .next s' → Head p c s'

/-- **The call makes progress**: a turn that does not return moves the position on and keeps it in
the buffer; and the call returns, with no assertion failed and no loop without end. -/
structure Progresses (p : RedisParser) (c : Bytes) : Prop where
  turn : ∀ s s', Head string2l p c s → s.curPos ≤ s.length - 1 →
    s.requestTurn string2l = .next s' →
    s.curPos < s'.curPos ∧ s'.curPos ≤ s'.length ∧ s'.length = s.length
  returns : (p.processInputBuffer string2l c).fault = none

/-! ### The length headers -/

/-- The number that the next move reads from a header. -/
def lengthRead (q : Req) (r : Bytes) : Option ℤ :=
  match settle q r with
  | .header => (r.idxOf? LF).bind (num string2l r)
  | .bulks _ blen _ =>
    if blen = -1 ∧ peek r 0 = ch '$' then (r.idxOf? LF).bind (num string2l r) else none
  | _ => none

/-- A count or length that is not negative and leaves room for a line end in a `long`. -/
def LengthOk (v : ℤ) : Prop := 0 ≤ v ∧ v ≤ LONG_MAX - 2

instance : DecidablePred LengthOk := fun _ => instDecidableAnd

/-- All numbers that are read from here on are in range. -/
def Lengths (len : ℤ) : ℕ → Req → Bytes → Prop
  | 0, _, _ => True
  | n + 1, q, r => (∀ v ∈ lengthRead string2l q r, LengthOk v) ∧
      ∀ x ∈ after (step string2l len q r), Lengths len n x.1 x.2

instance decidableLengths (len : ℤ) : ∀ n q r, Decidable (Lengths string2l len n q r)
  | 0, _, _ => .isTrue trivial
  | n + 1, q, r =>
    have : DecidablePred fun x : Req × Bytes => Lengths string2l len n x.1 x.2 :=
      fun x => decidableLengths len n x.1 x.2
    inferInstanceAs (Decidable (_ ∧ ∀ x ∈ after (step string2l len q r), _))

/-- A chunk that is not empty, with no length header out of range in the buffer of the call. -/
def Admissible (p : RedisParser) (c : Bytes) : Prop :=
  c ≠ [] ∧ (Accepts p → Lengths string2l (p.halfArgv ++ c).length ((p.halfArgv ++ c).length + 1)
    (progress p) (p.halfArgv ++ c))

instance (p : RedisParser) (c : Bytes) : Decidable (Admissible string2l p c) := instDecidableAnd

/-- The length of the buffer is an `int`, and if the header of a multibulk request is still to be
read the buffer does not start with a line feed. -/
def Resumable (p : RedisParser) (c : Bytes) : Prop :=
  Accepts p → (p.halfArgv ++ c).length < 2 ^ 31 ∧
    ¬(progress p = .header ∧ (p.halfArgv ++ c).head? = some LF)

instance (p : RedisParser) (c : Bytes) : Decidable (Resumable p c) :=
  inferInstanceAs (Decidable (_ → _ ∧ ¬_))

/-! ### Sequences of moves -/

section Sequences
variable {string2l} {len : ℤ} {q q₁ q₂ : Req} {r r₁ r₂ : Bytes} {ps ps₁ ps₂ : List Bytes}

theorem Moves.flatten (h : Moves string2l len q r ps q₁ r₁) : r = ps.flatten ++ r₁ := by
  induction h with
  | none => rfl
  | move ht _ ih => rw [ht.1, ih, List.flatten_cons, List.append_assoc]

theorem Moves.append (h : Moves string2l len q r ps₁ q₁ r₁)
    (h' : Moves string2l len q₁ r₁ ps₂ q₂ r₂) : Moves string2l len q r (ps₁ ++ ps₂) q₂ r₂ := by
  induction h with
  | none => exact h'
  | move ht _ ih => exact .move ht (ih h')

theorem Reads.flatten {cs : List Bytes} {h : Bytes} (hr : Reads string2l cs ps q h) :
    cs.flatten = ps.flatten ++ h := by
  induction hr with
  | start => rfl
  | call _ hm ih =>
    rw [List.flatten_append, List.flatten_append, ih, List.flatten_singleton, List.append_assoc,
      hm.flatten, List.append_assoc]

end Sequences

/-! ### The pieces -/

variable {string2l}

section Piece
variable {len : ℤ} {q q' : Req} {r r' : Bytes} {argv : Argv}

theorem moves_wait (h : step string2l len q r = .wait q' r') :
    ∃ ps, Moves string2l len q r ps q' r' := by
  obtain ⟨piece, hp⟩ : r' <:+ r :=
    step_leaves (show leaves (step string2l len q r) = some r' by rw [h]; rfl)
  exact ⟨_, .move ⟨hp.symm, .inl h⟩ (.none q' r')⟩

theorem moves_next (h : step string2l len q r = .next q' r') :
    ∃ ps, Moves string2l len q r ps q' r' := by
  obtain ⟨piece, hp⟩ : r' <:+ r :=
    step_leaves (show leaves (step string2l len q r) = some r' by rw [h]; rfl)
  exact ⟨_, .move ⟨hp.symm, .inr (.inl h)⟩ (.none q' r')⟩

theorem moves_emit (h : step string2l len q r = .emit argv r') :
    ∃ ps, Moves string2l len q r ps .fresh r' := by
  obtain ⟨piece, hp⟩ : r' <:+ r :=
    step_leaves (show leaves (step string2l len q r) = some r' by rw [h]; rfl)
  exact ⟨_, .move ⟨hp.symm, .inr (.inr ⟨rfl, argv, h⟩)⟩ (.none .fresh r')⟩

end Piece

/-! ### Moves with lengths in range -/

/-- The numbers that the progress holds are in range. -/
def InRange : Req → Prop
  | .bulks mlen blen _ => 0 < mlen ∧ (blen = -1 ∨ LengthOk blen)
  | _ => True

/-- A move that does not fault and leaves a progress in range. -/
def Good : Move → Prop
  | .wait q _ | .next q _ => InRange q
  | .fault _ => False
  | _ => True

theorem payloadMove_good {m b : ℤ} {v : Argv} (hm : 0 < m) (hb : LengthOk b) (r : Bytes) :
    Good (payloadMove m b v r) := by
  obtain ⟨h0, h1⟩ := hb
  have hmin : LONG_MIN < 0 := by decide
  unfold payloadMove
  rw [if_neg (by omega)]
  split_ifs
  · exact ⟨hm, .inr ⟨h0, h1⟩⟩
  · omega
  · omega
  · trivial
  · exact ⟨by omega, .inl rfl⟩

theorem bulkMove_good {m b : ℤ} {v : Argv} {r : Bytes} (hq : InRange (.bulks m b v))
    (hv : ∀ n ∈ lengthRead string2l (.bulks m b v) r, LengthOk n) :
    Good (bulkMove string2l m b v r) := by
  obtain ⟨hm, hb⟩ := hq
  unfold bulkMove
  by_cases hb1 : b = -1
  swap
  · rw [if_neg hb1]
    exact payloadMove_good hm (hb.resolve_left hb1) r
  rw [if_pos hb1]
  rcases hi : r.idxOf? LF with _ | i <;> dsimp only
  · exact ⟨hm, hb⟩
  by_cases hd : peek r 0 ≠ ch '$'
  · rw [if_pos hd]
    trivial
  rw [if_neg hd]
  rcases hn : num string2l r i with _ | n <;> dsimp only
  · trivial
  have hok : LengthOk n := by
    refine hv n ?_
    simp only [lengthRead, settle, hb1, not_not.mp hd, hi, Option.bind_some, hn, and_self, if_true,
      Option.mem_some]
  split_ifs
  · exact ⟨hm, .inr hok⟩
  · exact payloadMove_good hm hok _

theorem headerMove_good {r : Bytes} (hl : r.head? ≠ some LF)
    (hv : ∀ n ∈ lengthRead string2l .header r, LengthOk n) : Good (headerMove string2l r) := by
  unfold headerMove
  rcases hi : r.idxOf? LF with _ | i <;> dsimp only
  · trivial
  have h0 : i ≠ 0 := by
    rintro rfl
    obtain ⟨hlt, he, -⟩ := List.idxOf?_eq_some_iff.mp hi
    rw [List.head?_eq_getElem?, List.getElem?_eq_getElem hlt, he] at hl
    exact hl rfl
  rw [if_neg h0]
  rcases hn : num string2l r i with _ | n <;> dsimp only
  · trivial
  have hok : LengthOk n := by
    refine hv n ?_
    simp only [lengthRead, settle, hi, Option.bind_some, hn, Option.mem_some]
  have hpos : n ≠ 0 → InRange (.bulks n (-1) []) := fun h => ⟨by have := hok.1; omega, .inl rfl⟩
  split_ifs with h1 h2 h2
  · trivial
  · exact hpos h2
  · trivial
  · exact hpos h2

/-! ### The request at the head of a loop -/

theorem settle_settle (q : Req) (r : Bytes) : settle (settle q r) r = settle q r := by
  cases q with
  | fresh =>
    simp only [settle]
    split_ifs with h <;> simp
  | _ => rfl

/-- The header line of a request that starts here has an asterisk. -/
theorem settle_line {q : Req} {r : Bytes} (hl : q = .header → r.head? ≠ some LF)
    (hs : settle q r = .header) : r.head? ≠ some LF := by
  cases q with
  | fresh =>
    unfold settle at hs
    split_ifs at hs with hc
    intro hh
    rw [peek, List.getD_eq_getElem?_getD, ← List.head?_eq_getElem?, hh] at hc
    exact absurd hc (by decide)
  | inline => cases hs
  | header => exact hl rfl
  | bulks m b v => cases hs

variable (string2l) in
/-- The parser has the bytes `r` before it at the progress `q`, and all lengths are in range. -/
structure Facing (n : ℕ) (p : RedisParser) (q : Req) (r : Bytes) : Prop where
  fault : p.fault = none
  ptype : p.redisParserType = .request
  rep : Rep p q
  range : InRange q
  pos : At p.inputBuf p.curPos p.length r
  fuel : r.length < n
  lengths : Lengths string2l p.length n q r
  line : q = .header → r.head? ≠ some LF

theorem lengths_settle {len : ℤ} {n : ℕ} {q : Req} {r : Bytes} (h : Lengths string2l len n q r) :
    Lengths string2l len n (settle q r) r := by
  cases n with
  | zero => trivial
  | succ n =>
    rw [Lengths, step_settle (settle_settle q r)]
    have hr : lengthRead string2l (settle q r) r = lengthRead string2l q r := by
      rw [lengthRead, lengthRead, settle_settle]
    rw [hr]
    exact h

section Facing
variable {n : ℕ} {p : RedisParser} {q : Req} {r : Bytes}

theorem Facing.read (h : Facing string2l n p q r) : ∀ v ∈ lengthRead string2l q r, LengthOk v := by
  obtain ⟨n, rfl⟩ := Nat.exists_eq_add_of_lt (Nat.zero_lt_of_lt h.fuel)
  exact h.lengths.1

/-- The type of the request is set. -/
theorem Facing.typed (h : Facing string2l n p q r) :
    Facing string2l n (typed p) (settle q r) r := by
  obtain ⟨hF, hf, hb, hc⟩ := setRedisType_frame (p.recordTurn .request)
  have hl : (Callbacks.typed p).length = p.length := hF.length
  refine ⟨hf.trans h.fault, hF.ptype.trans h.ptype,
    setRedisType_rep (p := p.recordTurn .request) h.rep h.pos, ?_, ?_, h.fuel, ?_,
    settle_line h.line⟩
  · cases q with
    | fresh =>
      unfold settle
      dsimp only
      split_ifs <;> trivial
    | _ => exact h.range
  · rw [hl, show (Callbacks.typed p).inputBuf = p.inputBuf from hb,
      show (Callbacks.typed p).curPos = p.curPos from hc]
    exact h.pos
  · rw [hl]
    exact lengths_settle h.lengths

end Facing

/-! ### How a turn ends -/

variable (string2l) in
/-- The call that had `r` before it ends in `p'`: with an error, or waiting behind some moves. -/
inductive Ended (p : RedisParser) (q : Req) (r : Bytes) (p' : RedisParser) : Prop
  | error (hf : p'.fault = none) (hs : p'.statusCode = .error)
  | wait {q' : Req} {ps : List Bytes} (hf : p'.fault = none)
      (hs : p'.statusCode = if q' = .fresh then .done else .half)
      (ht : p'.redisParserType = .request) (hq : Rep p' q') (hr : InRange q')
      (hh : q' = .fresh → p'.halfArgv = []) (hm : Moves string2l p.length q r ps q' p'.halfArgv)

variable (string2l) in
/-- The turn of the loop that had `r` before it ends the call, or goes on behind some moves that have
taken a byte. -/
def Turned (p : RedisParser) (q : Req) (r : Bytes) : Flow → Prop
  | .ret p' => Ended string2l p q r p'
  | .next p' => p'.length = p.length ∧ p'.halfArgv = [] ∧ ∃ n r' ps,
      Facing string2l n p' .fresh r' ∧ Moves string2l p.length q r ps .fresh r' ∧
      r'.length < r.length

section Turned
variable {p p₁ : RedisParser} {q q₁ : Req} {r r₁ : Bytes} {ps : List Bytes}

theorem Ended.behind {p' : RedisParser} (h : Ended string2l p₁ q₁ r₁ p')
    (hm : Moves string2l p.length q r ps q₁ r₁) (hl : p₁.length = p.length) :
    Ended string2l p q r p' := by
  cases h with
  | error hf hs => exact .error hf hs
  | wait hf hs ht hq hr hh hm' =>
    rw [hl] at hm'
    exact .wait hf hs ht hq hr hh (hm.append hm')

theorem Turned.behind {x : Flow} (h : Turned string2l p₁ q₁ r₁ x)
    (hm : Moves string2l p.length q r ps q₁ r₁) (hl : p₁.length = p.length)
    (hle : r₁.length ≤ r.length) : Turned string2l p q r x := by
  cases x with
  | ret p' => exact Ended.behind h hm hl
  | next p' =>
    obtain ⟨h1, h2, n, r', ps', hF, hm', hlt⟩ := h
    rw [hl] at hm'
    exact ⟨h1.trans hl, h2, n, r', _, hF, hm.append hm', by omega⟩

/-- A request that is not complete ends the call. -/
theorem turned_ret {p' : RedisParser} (h : Ended string2l p q r p') (hs : p'.statusCode ≠ .done) :
    Turned string2l p q r p'.afterRequest := by
  rw [afterRequest, if_pos (.inr hs)]
  exact h

/-- What the delivery of a request does, whatever the callback returns. -/
theorem deliver_cases (p : RedisParser) :
    (∃ p', p.deliver = .ret p' ∧ p'.fault = p.fault ∧ p'.statusCode = .error) ∨
    ∃ p', p.deliver = .next p' ∧ p'.fault = p.fault ∧ p'.redisParserType = p.redisParserType ∧
      Rep p' .fresh ∧ p'.halfArgv = [] ∧ p'.inputBuf = p.inputBuf ∧ p'.curPos = p.curPos ∧
      p'.length = p.length := by
  unfold RedisParser.deliver
  by_cases ha : p.argv = []
  · rw [if_pos ha]
    exact .inr ⟨_, rfl, rfl, rfl, ⟨rfl, rfl, rfl, ha⟩, rfl, rfl, rfl, rfl⟩
  rw [if_neg ha]
  dsimp only
  split
  · exact .inr ⟨_, rfl, rfl, rfl, ⟨rfl, rfl, rfl, rfl⟩, rfl, rfl, rfl, rfl⟩
  · split_ifs
    · exact .inl ⟨_, rfl, rfl, rfl⟩
    · exact .inr ⟨_, rfl, rfl, rfl, ⟨rfl, rfl, rfl, rfl⟩, rfl, rfl, rfl, rfl⟩

/-- A complete request is delivered; the loop goes on behind it unless the callback fails. -/
theorem turned_done {s : RedisParser} {n : ℕ} (hs : s.statusCode = .done) (hf : s.fault = none)
    (ht : s.redisParserType = .request) (hat : At s.inputBuf s.curPos s.length r₁)
    (hn : r₁.length < n) (hL : Lengths string2l s.length n .fresh r₁) (hl : s.length = p.length)
    (hm : Moves string2l p.length q r ps .fresh r₁) (hlt : r₁.length < r.length) :
    Turned string2l p q r s.afterRequest := by
  rw [afterRequest, if_neg (by simp [hs, hf])]
  rcases deliver_cases s with ⟨p', hx, h1, h2⟩ | ⟨p', hx, h1, h2, h3, h4, h5, h6, h7⟩ <;> rw [hx]
  · exact .error (h1.trans hf) h2
  · refine ⟨h7.trans hl, h4, n, r₁, ps, ?_, hm, hlt⟩
    refine ⟨h1.trans hf, h2.trans ht, h3, trivial, ?_, hn, by rw [h7]; exact hL, by simp⟩
    rw [h5, h6, h7]
    exact hat

end Turned

/-! ### The loops -/

variable (string2l) in
/-- Behind a piece of the body of `ProcessMultibulkBuffer`: return, or go on in its loop. -/
def loopOn (j : ℕ) : Flow → RedisParser
  | .ret p => p
  | .next p => p.multibulkLoop string2l j

section Loops
variable {n j : ℕ} {p p₁ : RedisParser} {q : Req} {r : Bytes}

/-- The loop ends where all arguments are read. -/
theorem multibulkLoop_zero (hj : 0 < j) (hm : p.multibulkLen = 0) :
    p.multibulkLoop string2l j = (p.recordTurn .multibulk).setParserStatus .done := by
  obtain ⟨j, rfl⟩ : ∃ j', j = j' + 1 := ⟨j - 1, by omega⟩
  have hm' : (p.recordTurn .multibulk).multibulkLen = 0 := hm
  simp only [multibulkLoop]
  rw [if_pos hm', multibulkExit, if_pos hm']

/-- **A move inside a request**, and the loop behind it. -/
theorem turned_of_does {x : Flow} {m : Move} (hL : Lengths string2l p.length n q r)
    (hn : r.length < n) (hj : r.length ≤ j) (hm : step string2l p.length q r = m) (hg : Good m)
    (hD : Does p₁ m x) (hl : p₁.length = p.length) (ht : p₁.redisParserType = .request)
    (ih : ∀ n' p' m' v r', r'.length < j → Facing string2l n' p' (.bulks m' (-1) v) r' →
      Turned string2l p' (.bulks m' (-1) v) r' (p'.multibulkLoop string2l j).afterRequest) :
    Turned string2l p q r (loopOn string2l j x).afterRequest := by
  obtain ⟨n, rfl⟩ : ∃ n', n = n' + 1 := ⟨n - 1, by omega⟩
  obtain ⟨-, hafter⟩ := hL
  rw [hm] at hafter
  cases m with
  | wait q' r' =>
    obtain ⟨p', rfl, hE⟩ := hD
    have hne : q' ≠ .fresh := step_wait_ne_fresh hm
    obtain ⟨ps, hmoves⟩ := moves_wait hm
    have hst := hE.stands
    have hhalf : p'.fault = none ∧ p'.statusCode = .half ∧ Rep p' q' ∧ p'.halfArgv = r' := by
      cases q' with
      | fresh => exact absurd rfl hne
      | _ => exact ⟨hst.1, hst.2.1, hst.2.2.1, hst.2.2.2.1⟩
    obtain ⟨h1, h2, h3, rfl⟩ := hhalf
    refine turned_ret ?_ (by rw [loopOn, h2]; simp)
    exact .wait h1 (by rw [if_neg hne]; exact h2) (hE.ptype.trans ht) h3 hg
      (fun hq => absurd hq hne) hmoves
  | error c =>
    obtain ⟨p', rfl, hE⟩ := hD
    obtain ⟨h1, h2, -⟩ := hE.stands
    exact turned_ret (.error h1 h2) (by rw [loopOn, h2]; simp)
  | fault f => exact absurd hg id
  | next q' r' =>
    obtain ⟨p', rfl, hF, hf', hq', hat⟩ := hD
    obtain ⟨m', v, rfl⟩ := step_next_bulks hm
    obtain ⟨ps, hmoves⟩ := moves_next hm
    have hlt := step_next_shorter hm
    have hl' : p'.length = p.length := hF.length.trans hl
    refine Turned.behind (ih n p' m' v r' (by omega) ?_) hmoves hl' hlt.le
    have hL' := hafter _ rfl
    rw [← hl'] at hL'
    exact ⟨hf', hF.ptype.trans ht, hq', hg, hat, by omega, hL', by simp⟩
  | emit argv r' =>
    obtain ⟨p', rfl, hF, hf', hm0, -, hat⟩ := hD
    obtain ⟨ps, hmoves⟩ := moves_emit hm
    have hlt := step_emit_shorter hm
    have hl' : p'.length = p.length := hF.length.trans hl
    rw [loopOn, multibulkLoop_zero (by omega) hm0]
    have hL' := hafter _ rfl
    rw [← hl'] at hL'
    exact turned_done (n := n) (s := (p'.recordTurn .multibulk).setParserStatus .done) rfl hf'
      (hF.ptype.trans ht) hat (by omega) hL' hl' hmoves hlt

/-- **The loop of a multibulk request.** -/
theorem multibulkLoop_turned : ∀ (j : ℕ) {n : ℕ} {p : RedisParser} {m b : ℤ} {v : Argv} {r : Bytes},
    r.length < j → Facing string2l n p (.bulks m b v) r →
    Turned string2l p (.bulks m b v) r (p.multibulkLoop string2l j).afterRequest
  | 0, _, _, _, _, _, _, hj, _ => by omega
  | j + 1, n, p, m, b, v, r, hj, h => by
    have hm0 : ¬(p.recordTurn .multibulk).multibulkLen = 0 := by
      obtain ⟨-, q2, q3, -⟩ := h.rep
      rw [← q2] at q3
      exact q3
    have hloop : p.multibulkLoop string2l (j + 1) =
        loopOn string2l j ((p.recordTurn .multibulk).bulkTurn string2l) := by
      simp only [multibulkLoop, if_neg hm0]
      rcases (p.recordTurn .multibulk).bulkTurn string2l with p' | p' <;> rfl
    have hD : Does (p.recordTurn .multibulk) (bulkMove string2l m b v r)
        ((p.recordTurn .multibulk).bulkTurn string2l) :=
      bulkTurn_does (show Rep (p.recordTurn .multibulk) _ from h.rep) h.fault h.pos
    rw [hloop]
    exact turned_of_does h.lengths h.fuel (by omega) rfl (bulkMove_good h.range h.read) hD rfl
      h.ptype fun _ _ _ _ _ hr' h' => multibulkLoop_turned j hr' h'

theorem length_of_does {m : Move} {p' : RedisParser} (h : Does p m (.next p')) :
    p'.length = p.length := by
  cases m with
  | wait q r =>
    obtain ⟨p₁, hx, -⟩ := h
    cases hx
  | error c =>
    obtain ⟨p₁, hx, -⟩ := h
    cases hx
  | fault f =>
    obtain ⟨p₁, hx, -⟩ := h
    cases hx
  | next q r =>
    obtain ⟨p₁, hx, hF, -⟩ := h
    cases hx
    exact hF.length
  | emit a r =>
    obtain ⟨p₁, hx, hF, -⟩ := h
    cases hx
    exact hF.length

theorem header_turned (h : Facing string2l n p .header r) (hs : settle q r = .header)
    (hL : Lengths string2l p.length n q r) :
    Turned string2l p q r (p.processMultibulkBuffer string2l).afterRequest := by
  have hD : Does p (headerMove string2l r) (p.multibulkHeader string2l) :=
    multibulkHeader_does h.rep h.fault h.pos
  have hloop : p.processMultibulkBuffer string2l =
      loopOn string2l (p.length.toNat + 1) (p.multibulkHeader string2l) := by
    rw [processMultibulkBuffer, if_pos h.rep.2.1]
    rcases hx : p.multibulkHeader string2l with p' | p' <;> rw [hx] at hD
    · rfl
    · rw [loopOn, ← length_of_does hD]
  have hstep : step string2l p.length q r = headerMove string2l r := by rw [step, hs]
  have hsum := h.pos.sum
  have hnn := h.pos.nonneg
  rw [hloop]
  exact turned_of_does hL h.fuel (by omega) hstep (headerMove_good (h.line rfl) h.read) hD rfl
    h.ptype fun _ _ _ _ _ hr' h' => multibulkLoop_turned _ hr' h'

theorem inline_turned (h : Facing string2l n p .inline r) (hs : settle q r = .inline)
    (hL : Lengths string2l p.length n q r) :
    Turned string2l p q r p.processInlineBuffer.afterRequest := by
  have hstep : step string2l p.length q r = inlineMove p.length r := by rw [step, hs]
  have hn := h.fuel
  obtain ⟨n, rfl⟩ : ∃ n', n = n' + 1 := ⟨n - 1, by omega⟩
  unfold processInlineBuffer
  rw [findNextSeparators_eq h.pos, h.pos.rest]
  unfold inlineMove at hstep
  rcases hi : r.idxOf? LF with _ | i <;> rw [hi] at hstep <;> dsimp only at hstep
  · simp only [Option.map_none]
    by_cases hl : p.length > REDIS_INLINE_MAXLEN
    · rw [if_pos hl]
      exact turned_ret (.error h.fault rfl) (by simp [setParserStatus])
    · rw [if_neg hl] at hstep ⊢
      obtain ⟨ps, hm⟩ := moves_wait hstep
      refine turned_ret ?_ (by simp [setParserStatus])
      have hr : (p.setParserStatus .half).halfArgv = r := rest_eq h.pos
      have hq : Rep (p.setParserStatus .half) .inline := h.rep
      have hm' : Moves string2l p.length q r ps .inline (p.setParserStatus .half).halfArgv := by
        rw [hr]; exact hm
      exact .wait h.fault (by simp [setParserStatus]) h.ptype hq trivial (by simp) hm'
  · simp only [Option.map_some]
    rcases hs2 : split2args r with _ | argv <;> rw [hs2] at hstep <;> dsimp only at hstep
    · exact turned_ret (.error h.fault rfl) (by simp [setParserStatus])
    · obtain ⟨ps, hm⟩ := moves_emit hstep
      have hlt := length_drop_idxOf? hi
      have hL' := hL.2 _ (by rw [hstep]; rfl)
      exact turned_done (p := p) (n := n) (s := { p with argv := argv, curPos := p.curPos + i + 1
        }.setParserStatus .done) rfl h.fault h.ptype (h.pos.drop_line hi) (by omega) hL' rfl hm
        (by omega)

/-- **A turn of the loop of `ProcessRequestBuffer`.** -/
theorem requestTurn_turned (h : Facing string2l n p q r) :
    Turned string2l p q r (p.requestTurn string2l) := by
  have ht := h.typed
  have hl : (typed p).length = p.length := (setRedisType_frame (p.recordTurn .request)).1.length
  have hL : Lengths string2l (typed p).length n q r := by rw [hl]; exact h.lengths
  have hturn : p.requestTurn string2l =
      if (typed p).redisType = .inline then (typed p).processInlineBuffer.afterRequest
      else ((typed p).processMultibulkBuffer string2l).afterRequest := rfl
  suffices h' : Turned string2l (typed p) q r (p.requestTurn string2l) from
    h'.behind (.none q r) hl le_rfl
  rw [hturn]
  rcases hs : settle q r with _ | _ | _ | ⟨m, b, v⟩ <;> rw [hs] at ht
  · -- a request at the head of a turn has a type
    unfold settle at hs
    split at hs
    · split_ifs at hs
    · rename_i hne; exact absurd hs hne
  · rw [if_pos ht.rep.1]
    exact inline_turned ht hs hL
  · rw [if_neg (by rw [ht.rep.1]; simp)]
    exact header_turned ht hs hL
  · have hq : q = .bulks m b v := by
      cases q with
      | fresh => unfold settle at hs; split_ifs at hs
      | _ => exact hs
    have hm0 : ¬(typed p).multibulkLen = 0 := by rw [ht.rep.2.1]; exact ht.rep.2.2.1
    have hsum := ht.pos.sum
    have hnn := ht.pos.nonneg
    rw [if_neg (by rw [ht.rep.1]; simp), processMultibulkBuffer, if_neg hm0, hq]
    exact multibulkLoop_turned _ (by omega) ht

/-- What follows the loop of `ProcessRequestBuffer`, whatever the callback returns. -/
theorem complete_ended (h : Facing string2l n p .fresh []) (hh : p.halfArgv = []) :
    Ended string2l p .fresh [] p.complete := by
  have hdone : ∀ p' : RedisParser, p'.fault = p.fault → p'.redisParserType = p.redisParserType →
      Rep p' .fresh → p'.halfArgv = p.halfArgv →
      Ended string2l p .fresh [] (p'.setParserStatus .done) := by
    intro p' h1 h2 h3 h4
    have hh' : (p'.setParserStatus .done).halfArgv = [] := h4.trans hh
    have hm : Moves string2l p.length .fresh [] [] .fresh (p'.setParserStatus .done).halfArgv := by
      rw [hh']; exact .none _ _
    exact .wait (h1.trans h.fault) (by simp [setParserStatus]) (h2.trans h.ptype)
      (show Rep (p'.setParserStatus .done) .fresh from h3) trivial (fun _ => hh') hm
  unfold RedisParser.complete
  split
  · exact hdone { p with argvs := [] } rfl rfl h.rep rfl
  · dsimp only
    split_ifs
    · exact .error h.fault rfl
    · exact hdone _ rfl rfl h.rep rfl

/-- **The loop of `ProcessRequestBuffer`**, with more fuel than bytes. -/
theorem requestLoop_ended : ∀ (k : ℕ) {n : ℕ} {p : RedisParser} {q : Req} {r : Bytes},
    r.length < k → Facing string2l n p q r → (r = [] → q = .fresh ∧ p.halfArgv = []) →
    Ended string2l p q r (p.requestLoop string2l k)
  | 0, _, _, _, _, hk, _, _ => by omega
  | k + 1, n, p, q, r, hk, h, hnil => by
    have hsum := h.pos.sum
    rw [requestLoop_succ]
    by_cases hr : r = []
    · obtain ⟨rfl, hh⟩ := hnil hr
      subst hr
      rw [if_neg (by simp at hsum; omega)]
      exact complete_ended h hh
    have hpos : 0 < r.length := List.length_pos_iff.mpr hr
    rw [if_pos (by omega)]
    have ht := requestTurn_turned h
    rcases hx : p.requestTurn string2l with p' | p' <;> rw [hx] at ht
    · exact ht
    · obtain ⟨hl, hh, n', r', ps, hF, hm, hlt⟩ := ht
      exact Ended.behind (requestLoop_ended k (by omega) hF fun _ => ⟨rfl, hh⟩) hm hl

end Loops

/-! ### Calls -/

variable (string2l) in
/-- What stands between two calls, the chunks `cs` having been fed: a parser that has stopped, or one
that waits behind the pieces taken. -/
inductive Between (cs : List Bytes) (p : RedisParser) : Prop
  | error (hf : p.fault = none) (hs : p.statusCode = .error)
  | wait {q : Req} {ps : List Bytes} (hf : p.fault = none)
      (hs : p.statusCode = .initDone ∨ p.statusCode = if q = .fresh then .done else .half)
      (ht : p.redisParserType = .request) (hc : p.curPos = 0) (hq : Rep p q) (hr : InRange q)
      (hh : q = .fresh → p.halfArgv = []) (hm : Reads string2l cs ps q p.halfArgv)

theorem between_fresh (settings : RedisParserSettings) :
    Between string2l [] (freshRequest settings) :=
  .wait rfl (.inl rfl) rfl rfl (show Rep (freshRequest settings) .fresh from ⟨rfl, rfl, rfl, rfl⟩)
    trivial (fun _ => rfl) .start

section Calls
variable {cs : List Bytes} {c : Bytes} {p s : RedisParser}

theorem Head.accepts (h : Head string2l p c s) : Accepts p := by
  induction h with
  | start h => exact h
  | turn _ _ _ ih => exact ih

variable (string2l) in
theorem processInputBuffer_entered (ha : Accepts p) (ht : p.redisParserType = .request) (c : Bytes) :
    p.processInputBuffer string2l c =
      ((entered p c).processRequestBuffer string2l).resetRedisParser := by
  unfold processInputBuffer
  rw [if_neg (by simp [ha.1]), if_pos ha.2]
  dsimp only
  split
  · rfl
  · simp_all
  · simp_all

/-- The start of a call. -/
theorem facing_entered {q : Req} (ha : Accepts p) (hl : Admissible string2l p c) (hh : Resumable p c)
    (ht : p.redisParserType = .request) (hc : p.curPos = 0) (hq : Rep p q) (hr : InRange q) :
    Facing string2l ((p.halfArgv ++ c).length + 1) (entered p c) q (p.halfArgv ++ c) ∧
      (entered p c).length = (p.halfArgv ++ c).length := by
  obtain ⟨hlt, hline⟩ := hh ha
  have hL := hl.2 ha
  rw [progress_of_rep hq] at hline hL
  obtain ⟨len, hlen⟩ : ∃ len, toInt32 (p.halfArgv ++ c).length = len := ⟨_, rfl⟩
  have hlen' : len = (p.halfArgv ++ c).length := by rw [← hlen, toInt32_of_lt hlt]
  rw [entered, hlen]
  refine ⟨⟨ha.1, ht, ?_, hr, ?_, lt_add_one _, ?_, fun h1 h2 => hline ⟨h1, h2⟩⟩, hlen'⟩
  · cases q <;> exact hq
  · dsimp only
    rw [hlen', hc]
    exact ⟨le_rfl, by omega, rfl, rfl⟩
  · dsimp only
    rw [hlen']
    exact hL

/-- At the head of the loop all that is unread is before the parser. -/
theorem Head.facing (h : Head string2l p c s)
    (h0 : ∃ n q r, Facing string2l n (entered p c) q r) : ∃ n q r, Facing string2l n s q r := by
  induction h with
  | start => exact h0
  | turn _ _ hx ih =>
    obtain ⟨n, q, r, hF⟩ := ih
    have ht := requestTurn_turned hF
    rw [hx] at ht
    obtain ⟨-, -, n', r', -, hF', -⟩ := ht
    exact ⟨n', .fresh, r', hF'⟩

/-- A turn that goes on moves the position on. -/
theorem turn_moves {s' : RedisParser} {n : ℕ} {q : Req} {r : Bytes} (hF : Facing string2l n s q r)
    (hx : s.requestTurn string2l = .next s') :
    s.curPos < s'.curPos ∧ s'.curPos ≤ s'.length ∧ s'.length = s.length := by
  have ht := requestTurn_turned hF
  rw [hx] at ht
  obtain ⟨hl, -, n', r', ps, hF', -, hlt⟩ := ht
  have h1 := hF.pos.sum
  have h2 := hF'.pos.sum
  exact ⟨by omega, hF'.pos.le, hl⟩

/-- The end of a call. -/
theorem Ended.between {p' : RedisParser} {q : Req} {ps : List Bytes} {h : Bytes}
    (hE : Ended string2l p q (h ++ c) p') (hm : Reads string2l cs ps q h)
    (hlen : p.length = (h ++ c).length) : Between string2l (cs ++ [c]) p'.resetRedisParser := by
  cases hE with
  | error hf hs => exact .error hf hs
  | wait hf hs ht hq hr hh hm' =>
    rename_i q' ps'
    have hrep : Rep p'.resetRedisParser q' := by cases q' <;> exact hq
    rw [hlen] at hm'
    exact .wait hf (.inr hs) ht rfl hrep hr hh (.call hm hm')

theorem Ended.fault {p' : RedisParser} {q : Req} {r : Bytes} (hE : Ended string2l p q r p') :
    p'.resetRedisParser.fault = none := by
  cases hE with
  | error hf hs => exact hf
  | wait hf => exact hf

/-- **One call**, from a parser that waits or has stopped. -/
theorem between_call (h : Between string2l cs p) (hl : Admissible string2l p c) (hh : Resumable p c) :
    Between string2l (cs ++ [c]) (p.processInputBuffer string2l c) ∧ Progresses string2l p c := by
  cases h with
  | error hf hs =>
    have hna : ¬Accepts p := fun ha => by simp [Accepts, hs] at ha
    rw [processInputBuffer_error hf hs]
    refine ⟨.error hf rfl, ⟨fun s s' hs' => absurd hs'.accepts hna, ?_⟩⟩
    rw [processInputBuffer_error hf hs]
    exact hf
  | wait hf hs ht hc hq hr hfresh hm =>
    rename_i q ps
    have ha : Accepts p := by
      refine ⟨hf, ?_⟩
      rcases hs with hs | hs
      · exact .inl hs
      · split_ifs at hs
        · exact .inr (.inr hs)
        · exact .inr (.inl hs)
    obtain ⟨hF, hlen⟩ := facing_entered ha hl hh ht hc hq hr
    have hne : p.halfArgv ++ c ≠ [] := by simp [hl.1]
    have hE : Ended string2l (entered p c) q (p.halfArgv ++ c)
        ((entered p c).processRequestBuffer string2l) := by
      rw [processRequestBuffer]
      exact requestLoop_ended _ (by omega) hF fun hnil => absurd hnil hne
    have hcall := processInputBuffer_entered string2l ha ht c
    refine ⟨?_, ⟨fun s s' hs' _ hx => ?_, ?_⟩⟩
    · rw [hcall]
      exact hE.between hm hlen
    · obtain ⟨n, q₁, r, hF₁⟩ := hs'.facing ⟨_, _, _, hF⟩
      exact turn_moves hF₁ hx
    · rw [hcall]
      exact hE.fault

/-- A header that faults ends the turn. -/
theorem requestTurn_fault {r : Bytes} {f : Fault} (hf : p.fault = none) (hq : Rep p .header)
    (hat : At p.inputBuf p.curPos p.length r) (hm : headerMove string2l r = .fault f) :
    ∃ p', p.requestTurn string2l = .ret p' ∧ p'.fault = some f := by
  have hset : (p.recordTurn .request).setRedisType = p.recordTurn .request := by
    rw [setRedisType, if_pos (show (p.recordTurn .request).redisType ≠ .unset by
      rw [show (p.recordTurn .request).redisType = .multibulk from hq.1]; simp)]
  have hD : Does (p.recordTurn .request) (headerMove string2l r)
      ((p.recordTurn .request).multibulkHeader string2l) :=
    multibulkHeader_does (show Rep (p.recordTurn .request) .header from hq) hf hat
  rw [hm] at hD
  obtain ⟨p', hx, hE⟩ := hD
  have hf' : p'.fault = some f := hE.stands.1
  have hmb : (p.recordTurn .request).processMultibulkBuffer string2l = p' := by
    rw [processMultibulkBuffer, if_pos (show (p.recordTurn .request).multibulkLen = 0 from hq.2.1),
      hx]
  refine ⟨p', ?_, hf'⟩
  simp only [requestTurn]
  rw [hset, if_neg (by rw [show (p.recordTurn .request).redisType = .multibulk from hq.1]; simp),
    hmb, afterRequest, if_pos (.inl (by rw [hf']; simp))]

/-- The condition is needed: in a buffer whose length is an `int`, a request header that starts with a
line feed fails the assertion of `GetNextNum`. -/
theorem resumable_of_returns (h : Between string2l cs p) (hlt : (p.halfArgv ++ c).length < 2 ^ 31)
    (hf : (p.processInputBuffer string2l c).fault = none) : Resumable p c := by
  intro ha
  refine ⟨hlt, fun hline => ?_⟩
  obtain ⟨hq, hlf⟩ := hline
  cases h with
  | error _ hs => simp [Accepts, hs] at ha
  | wait _ _ ht hc hrep =>
    rename_i q ps
    rw [progress_of_rep hrep] at hq
    subst hq
    obtain ⟨len, hlen⟩ : ∃ len, toInt32 (p.halfArgv ++ c).length = len := ⟨_, rfl⟩
    have hlen' : len = (p.halfArgv ++ c).length := by rw [← hlen, toInt32_of_lt hlt]
    rw [processInputBuffer_entered string2l ha ht, entered, hlen] at hf
    have hmove : headerMove string2l (p.halfArgv ++ c) = .fault .assertion := by
      obtain ⟨b, hb⟩ : ∃ b, p.halfArgv ++ c = LF :: b := List.head?_eq_some_iff.mp hlf
      rw [hb, headerMove]
      rfl
    have hpos : 0 < (p.halfArgv ++ c).length := by
      refine List.length_pos_iff.mpr fun hnil => ?_
      rw [hnil] at hlf
      cases hlf
    obtain ⟨p', hx, hf'⟩ := requestTurn_fault
      (p := { p with inputBuf := p.halfArgv ++ c, length := len }) ha.1 hrep
      ⟨hc.ge, by dsimp only; omega, hlen', by dsimp only; rw [hc]; rfl⟩ hmove
    rw [processRequestBuffer, requestLoop_succ, if_pos (by dsimp only; omega), hx] at hf
    exact absurd (hf.symm.trans hf') (by simp)

theorem Between.accounted (h : Between string2l cs p) : Accounted string2l cs p := by
  cases h with
  | error hf hs => exact ⟨fun h => by simp [hs] at h, fun h => by simp [hs] at h⟩
  | wait hf hs ht hc hq hr hh hm =>
    refine ⟨fun h => ?_, fun h => ?_⟩
    · rw [progress_of_rep hq]
      exact ⟨_, hm, hm.flatten⟩
    · rw [h] at hs
      have hfr := hs.resolve_left (by simp)
      split_ifs at hfr with hq'
      subst hq'
      have hnil := hh rfl
      rw [hnil] at hm
      exact ⟨hnil, _, hm, by simpa using hm.flatten⟩

end Calls

/-! ### Runs -/

/-- **A run whose calls all meet the condition.** -/
theorem run_between : ∀ {cs fed : List Bytes} {p : RedisParser}, Between string2l fed p →
    Guarded (processInputBuffer string2l) (Admissible string2l) p cs →
    Guarded (processInputBuffer string2l) Resumable p cs →
    Guarded (processInputBuffer string2l) (Progresses string2l) p cs ∧
      ∀ pre, pre <+: cs → Between string2l (fed ++ pre) (p.feed string2l pre)
  | [], fed, p, h, _, _ => by
    refine ⟨trivial, fun pre hpre => ?_⟩
    obtain rfl := List.prefix_nil.mp hpre
    rw [List.append_nil]
    exact h
  | c :: cs, fed, p, h, hl, hh => by
    obtain ⟨hb, hp⟩ := between_call h hl.1 hh.1
    obtain ⟨i1, i2⟩ := run_between hb hl.2 hh.2
    refine ⟨⟨hp, i1⟩, fun pre hpre => ?_⟩
    cases pre with
    | nil =>
      rw [List.append_nil]
      exact h
    | cons d pre =>
      obtain ⟨rfl, hpre'⟩ := List.cons_prefix_cons.mp hpre
      have := i2 pre hpre'
      rwa [List.append_assoc, List.singleton_append] at this

/-- **Every byte is accounted for and every call makes progress**, with any callbacks and however the
stream is cut, as long as no request header is resumed at a line feed. -/
theorem stream_accounted (string2l : Bytes → ℕ → Option ℤ) (settings : RedisParserSettings)
    (cs : List Bytes)
    (hl : Guarded (processInputBuffer string2l) (Admissible string2l) (freshRequest settings) cs)
    (hh : Guarded (processInputBuffer string2l) Resumable (freshRequest settings) cs) :
    Guarded (processInputBuffer string2l) (Progresses string2l) (freshRequest settings) cs ∧
      ∀ pre, pre <+: cs →
        Accounted string2l pre ((freshRequest settings).feed string2l pre) := by
  obtain ⟨h1, h2⟩ := run_between (between_fresh settings) hl hh
  exact ⟨h1, fun pre hpre => (h2 pre hpre).accounted⟩

theorem stream_accounted_ping :
    Guarded (processInputBuffer Wire.string2l) (Progresses Wire.string2l) (freshRequest okSettings)
      [bytes "*1\r\n$4\r\nPI", bytes "NG\r\nGET a"] ∧
    ∀ pre, pre <+: [bytes "*1\r\n$4\r\nPI", bytes "NG\r\nGET a"] →
      Accounted Wire.string2l pre ((freshRequest okSettings).feed Wire.string2l pre) :=
  stream_accounted Wire.string2l okSettings [bytes "*1\r\n$4\r\nPI", bytes "NG\r\nGET a"]
    (by decide +kernel) (by decide +kernel)

/-- **Behind an empty multibulk request that ends a chunk, a line feed fails an assertion.** -/
theorem not_progresses_lineFeed :
    Guarded (processInputBuffer Wire.string2l) (Admissible Wire.string2l) (freshRequest okSettings)
      [bytes "*0\r\n", bytes "\n"] ∧
    ¬Guarded (processInputBuffer Wire.string2l) (Progresses Wire.string2l) (freshRequest okSettings)
      [bytes "*0\r\n", bytes "\n"] := by
  refine ⟨by decide +kernel, fun h => ?_⟩
  have hf := h.2.1.returns
  revert hf
  decide +kernel

end Pink.Redis.Consumed
