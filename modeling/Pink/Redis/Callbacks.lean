import Pink.Redis.Feed

/-! # Callbacks that fail

What the callbacks can change. The parser reads its settings, the commands it has collected and the
recorded calls only where it calls back; so up to the first callback that fails it goes the way it
goes with callbacks that return `0` (`processInputBuffer_swap`), and what is known of such a parser
holds of any (`Able`). -/

namespace Pink.Redis.Callbacks

open Pink.Redis.Wire Pink.Redis.Split2args Pink.Redis.Parser Pink.Redis.Parser.RedisParser
open Pink.Redis.Scan Pink.Redis.Refine Pink.Redis.Feed

/-- The parser with other callbacks, collected commands and recorded calls. -/
def swap (s : RedisParserSettings) (a : List Argv) (l : List Event) (p : RedisParser) :
    RedisParser := { p with parserSettings := s, argvs := a, log := l }

def swapFlow (s : RedisParserSettings) (a : List Argv) (l : List Event) : Flow → Flow
  | .ret p => .ret (swap s a l p)
  | .next p => .next (swap s a l p)

/-- `x` is `y` with the settings `s`. -/
def SwapOf (s : RedisParserSettings) (y x : RedisParser) : Prop := ∃ a l, x = swap s a l y

def SwapOfFlow (s : RedisParserSettings) (y x : Flow) : Prop := ∃ a l, x = swapFlow s a l y

variable (string2l : Bytes → ℕ → Option ℤ) {s : RedisParserSettings} {p p' : RedisParser}

theorem SwapOf.ret (h : SwapOf s p p') : SwapOfFlow s (.ret p) (.ret p') := by
  obtain ⟨a, l, rfl⟩ := h
  exact ⟨a, l, rfl⟩

section Branches
variable {c c' : Prop} [Decidable c] [Decidable c'] {x y x' y' : Flow} {q r q' r' : RedisParser}

theorem swapOf_ite (hc : c' = c) (h1 : SwapOf s q q') (h2 : SwapOf s r r') :
    SwapOf s (if c then q else r) (if c' then q' else r') := by
  subst hc
  by_cases hc : c'
  · rwa [if_pos hc, if_pos hc]
  · rwa [if_neg hc, if_neg hc]

theorem swapOfFlow_ite (hc : c' = c) (h1 : SwapOfFlow s x x') (h2 : SwapOfFlow s y y') :
    SwapOfFlow s (if c then x else y) (if c' then x' else y') := by
  subst hc
  by_cases hc : c'
  · rwa [if_pos hc, if_pos hc]
  · rwa [if_neg hc, if_neg hc]

end Branches

/-! ### Functions that do not call back -/

section Functions
variable (s) (a : List Argv) (l : List Event) (p)

theorem swapOf_setParserStatus (st : RedisParserStatus) (e : RedisParserError) :
    SwapOf s (p.setParserStatus st e) ((swap s a l p).setParserStatus st e) := by
  unfold setParserStatus
  split_ifs <;> exact ⟨a, l, rfl⟩

theorem swapOf_processInlineBuffer :
    SwapOf s p.processInlineBuffer (swap s a l p).processInlineBuffer := by
  have hsep : (swap s a l p).findNextSeparators = p.findNextSeparators := rfl
  unfold processInlineBuffer
  rw [hsep]
  rcases p.findNextSeparators with f | (_ | pos)
  · exact ⟨a, l, rfl⟩
  · exact swapOf_ite rfl (swapOf_setParserStatus s p a l _ _) (swapOf_setParserStatus s p a l _ _)
  · dsimp only [swap]
    rcases split2args (p.inputBuf.drop p.curPos.toNat) with _ | argv <;> exact ⟨a, l, rfl⟩

theorem getNextNum_swap (e : Event) (pos : ℤ) :
    ((swap s a l p).record e).getNextNum string2l pos = (p.record e).getNextNum string2l pos := rfl

theorem swapOf_multibulkHeader :
    SwapOfFlow s (p.multibulkHeader string2l) ((swap s a l p).multibulkHeader string2l) := by
  have hsep : (swap s a l p).findNextSeparators = p.findNextSeparators := rfl
  unfold multibulkHeader
  rw [hsep]
  rcases p.findNextSeparators with f | (_ | pos)
  · exact ⟨a, l, rfl⟩
  · exact ⟨a, l, rfl⟩
  · dsimp only
    rw [getNextNum_swap, show (swap s a l p).curPos = p.curPos from rfl,
      show (swap s a l p).length = p.length from rfl]
    rcases getNextNum string2l (p.record (.getNextNum p.curPos pos p.length)) pos with f | (_ | v)
    · exact ⟨a, _, rfl⟩
    · exact ⟨a, _, rfl⟩
    · exact swapOfFlow_ite rfl ⟨a, _, rfl⟩ ⟨a, _, rfl⟩

theorem swapOf_bulkHeader :
    SwapOfFlow s (p.bulkHeader string2l) ((swap s a l p).bulkHeader string2l) := by
  have hsep : (swap s a l p).findNextSeparators = p.findNextSeparators := rfl
  unfold bulkHeader
  rw [hsep]
  rcases p.findNextSeparators with f | (_ | pos)
  · exact ⟨a, l, rfl⟩
  · exact ⟨a, l, rfl⟩
  · dsimp only
    refine swapOfFlow_ite rfl ⟨a, l, rfl⟩ ?_
    rw [getNextNum_swap, show (swap s a l p).curPos = p.curPos from rfl,
      show (swap s a l p).length = p.length from rfl]
    rcases getNextNum string2l (p.record (.getNextNum p.curPos pos p.length)) pos with f | (_ | v)
    · exact ⟨a, _, rfl⟩
    · exact ⟨a, _, rfl⟩
    · exact swapOfFlow_ite rfl ⟨a, _, rfl⟩ ⟨a, _, rfl⟩

theorem swapOf_multibulkExit : SwapOf s p.multibulkExit (swap s a l p).multibulkExit :=
  swapOf_ite rfl (swapOf_setParserStatus s p a l _ _) (swapOf_setParserStatus s p a l _ _)

theorem swapOf_takeBulk : SwapOfFlow s p.takeBulk (swap s a l p).takeBulk := by
  unfold takeBulk
  refine swapOfFlow_ite rfl ⟨a, l, rfl⟩ (swapOfFlow_ite rfl (swapOf_multibulkExit s p a l).ret ?_)
  exact swapOfFlow_ite rfl ⟨a, _, rfl⟩ (swapOfFlow_ite rfl ⟨a, _, rfl⟩ ⟨a, _, rfl⟩)

theorem swapOf_bulkTurn : SwapOfFlow s (p.bulkTurn string2l) ((swap s a l p).bulkTurn string2l) := by
  unfold bulkTurn
  have h : SwapOfFlow s (if p.bulkLen = -1 then p.bulkHeader string2l else .next p)
      (if (swap s a l p).bulkLen = -1 then (swap s a l p).bulkHeader string2l
        else .next (swap s a l p)) :=
    swapOfFlow_ite rfl (swapOf_bulkHeader string2l s p a l) ⟨a, l, rfl⟩
  obtain ⟨a', l', h⟩ := h
  rw [h]
  rcases (if p.bulkLen = -1 then p.bulkHeader string2l else .next p) with q | q
  · exact ⟨a', l', rfl⟩
  · exact swapOf_takeBulk s q a' l'

theorem swapOf_multibulkLoop : ∀ (n : ℕ) (a : List Argv) (l : List Event) (p : RedisParser),
    SwapOf s (p.multibulkLoop string2l n) ((swap s a l p).multibulkLoop string2l n)
  | 0, a, l, p => ⟨a, l, rfl⟩
  | n + 1, a, l, p => by
    obtain ⟨a₁, l₁, h₁⟩ : SwapOf s (p.recordTurn .multibulk) ((swap s a l p).recordTurn .multibulk) :=
      ⟨a, _, rfl⟩
    simp only [multibulkLoop]
    rw [h₁]
    refine swapOf_ite rfl (swapOf_multibulkExit s _ a₁ l₁) ?_
    obtain ⟨a₂, l₂, h₂⟩ := swapOf_bulkTurn string2l s (p.recordTurn .multibulk) a₁ l₁
    rw [h₂]
    rcases (p.recordTurn .multibulk).bulkTurn string2l with q | q
    · exact ⟨a₂, l₂, rfl⟩
    · exact swapOf_multibulkLoop n a₂ l₂ q

theorem swapOf_processMultibulkBuffer :
    SwapOf s (p.processMultibulkBuffer string2l) ((swap s a l p).processMultibulkBuffer string2l) := by
  unfold processMultibulkBuffer
  have h : SwapOfFlow s (if p.multibulkLen = 0 then p.multibulkHeader string2l else .next p)
      (if (swap s a l p).multibulkLen = 0 then (swap s a l p).multibulkHeader string2l
        else .next (swap s a l p)) :=
    swapOfFlow_ite rfl (swapOf_multibulkHeader string2l s p a l) ⟨a, l, rfl⟩
  obtain ⟨a', l', h⟩ := h
  rw [h]
  rcases (if p.multibulkLen = 0 then p.multibulkHeader string2l else .next p) with q | q
  · exact ⟨a', l', rfl⟩
  · exact swapOf_multibulkLoop string2l s _ a' l' q

theorem swapOf_setRedisType : SwapOf s p.setRedisType (swap s a l p).setRedisType :=
  swapOf_ite rfl ⟨a, l, rfl⟩ (swapOf_ite rfl ⟨a, l, rfl⟩ ⟨a, l, rfl⟩)

end Functions

/-! ### Callbacks -/

/-- A callback has failed. -/
def CallbackFailed (p : RedisParser) : Prop :=
  p.statusCode = .error ∧ (p.errorCode = .dealError ∨ p.errorCode = .completeError)

/-- The flow is that of `y`, or a callback has failed. -/
def FollowsFlow (s : RedisParserSettings) (y x : Flow) : Prop :=
  SwapOfFlow s y x ∨ ∃ p, x = .ret p ∧ CallbackFailed p

def Follows (s : RedisParserSettings) (y x : RedisParser) : Prop :=
  SwapOf s y x ∨ CallbackFailed x

section Deliver
variable (s) (a : List Argv) (l : List Event) (hp : p.parserSettings = okSettings)
include hp

theorem follows_deliver : FollowsFlow s p.deliver (swap s a l p).deliver := by
  unfold RedisParser.deliver
  by_cases ha : p.argv = []
  · rw [if_pos ha, if_pos (show (swap s a l p).argv = [] from ha)]
    exact .inl ⟨a, l, rfl⟩
  rw [if_neg ha, if_neg (show ¬(swap s a l p).argv = [] from ha), hp]
  dsimp only [swap, okSettings]
  rw [if_neg (by simp)]
  rcases s with ⟨_ | dealMessage, complete⟩
  · exact .inl ⟨_, _, rfl⟩
  · dsimp only
    by_cases hr : dealMessage l p.argv ≠ 0
    · rw [if_pos hr]
      exact .inr ⟨_, rfl, rfl, .inl rfl⟩
    · rw [if_neg hr]
      exact .inl ⟨_, _, rfl⟩

theorem follows_complete : Follows s p.complete (swap s a l p).complete := by
  unfold complete
  rw [hp]
  dsimp only [swap, okSettings]
  rw [if_neg (by simp)]
  rcases s with ⟨dealMessage, _ | complete⟩
  · exact .inl ⟨_, _, rfl⟩
  · dsimp only
    by_cases hr : complete l (a.map lowerName) ≠ 0
    · rw [if_pos hr]
      exact .inr ⟨rfl, .inr rfl⟩
    · rw [if_neg hr]
      exact .inl ⟨_, _, rfl⟩

theorem follows_afterRequest : FollowsFlow s p.afterRequest (swap s a l p).afterRequest := by
  unfold afterRequest
  by_cases hd : p.fault ≠ none ∨ p.statusCode ≠ .done
  · rw [if_pos hd, if_pos (show (swap s a l p).fault ≠ none ∨ (swap s a l p).statusCode ≠ .done
      from hd)]
    exact .inl ⟨a, l, rfl⟩
  · rw [if_neg hd, if_neg (show ¬((swap s a l p).fault ≠ none ∨ (swap s a l p).statusCode ≠ .done)
      from hd)]
    exact follows_deliver s a l hp

end Deliver

/-! ### Settings -/

theorem SwapOf.settings (h : SwapOf s p p') : p'.parserSettings = s := by
  obtain ⟨a, l, rfl⟩ := h
  rfl

/-- What goes the same way with all settings keeps them. -/
theorem settings_eq {f : RedisParser → RedisParser}
    (h : ∀ s a l, SwapOf s (f p) (f (swap s a l p))) : (f p).parserSettings = p.parserSettings :=
  (h p.parserSettings p.argvs p.log).settings

theorem deliver_settings (h : p.deliver = .next p') : p'.parserSettings = p.parserSettings := by
  unfold RedisParser.deliver at h
  split_ifs at h
  · cases h; rfl
  · dsimp only at h
    split at h
    · cases h; rfl
    · split_ifs at h
      cases h; rfl

theorem afterRequest_settings (h : p.afterRequest = .next p') :
    p'.parserSettings = p.parserSettings := by
  unfold afterRequest at h
  split_ifs at h
  exact deliver_settings h

/-- The parser at the head of a turn of the outer loop. -/
def typed (p : RedisParser) : RedisParser := (p.recordTurn .request).setRedisType

theorem swapOf_typed (s : RedisParserSettings) (a : List Argv) (l : List Event) :
    SwapOf s (typed p) (typed (swap s a l p)) := by
  obtain ⟨l', h'⟩ : ∃ l', (swap s a l p).recordTurn .request = swap s a l' (p.recordTurn .request) :=
    ⟨_, rfl⟩
  unfold typed
  rw [h']
  exact swapOf_setRedisType s (p.recordTurn .request) a l'

theorem requestTurn_settings (h : p.requestTurn string2l = .next p') :
    p'.parserSettings = p.parserSettings := by
  have ht : (typed p).parserSettings = p.parserSettings := settings_eq swapOf_typed
  simp only [requestTurn] at h
  split_ifs at h
  · rw [afterRequest_settings h]
    exact (settings_eq fun s => swapOf_processInlineBuffer s (typed p)).trans ht
  · rw [afterRequest_settings h]
    exact (settings_eq fun s => swapOf_processMultibulkBuffer string2l s (typed p)).trans ht

/-! ### The loop -/

theorem follows_requestTurn (a : List Argv) (l : List Event) (hp : p.parserSettings = okSettings) :
    FollowsFlow s (p.requestTurn string2l) ((swap s a l p).requestTurn string2l) := by
  have ht : (typed p).parserSettings = okSettings := (settings_eq swapOf_typed).trans hp
  obtain ⟨a₁, l₁, h₁⟩ := swapOf_typed (p := p) s a l
  change FollowsFlow s
    (if (typed p).redisType = .inline then (typed p).processInlineBuffer.afterRequest
      else ((typed p).processMultibulkBuffer string2l).afterRequest)
    (if (typed (swap s a l p)).redisType = .inline
      then (typed (swap s a l p)).processInlineBuffer.afterRequest
      else ((typed (swap s a l p)).processMultibulkBuffer string2l).afterRequest)
  rw [h₁, show (swap s a₁ l₁ (typed p)).redisType = (typed p).redisType from rfl]
  split_ifs
  · have hs := settings_eq fun s => swapOf_processInlineBuffer s (typed p)
    obtain ⟨a₂, l₂, h₂⟩ := swapOf_processInlineBuffer s (typed p) a₁ l₁
    rw [h₂]
    exact follows_afterRequest s a₂ l₂ (hs.trans ht)
  · have hs := settings_eq fun s => swapOf_processMultibulkBuffer string2l s (typed p)
    obtain ⟨a₂, l₂, h₂⟩ := swapOf_processMultibulkBuffer string2l s (typed p) a₁ l₁
    rw [h₂]
    exact follows_afterRequest s a₂ l₂ (hs.trans ht)

theorem follows_requestLoop : ∀ (n : ℕ) {p : RedisParser} (a : List Argv) (l : List Event),
    p.parserSettings = okSettings →
      Follows s (p.requestLoop string2l n) ((swap s a l p).requestLoop string2l n) := by
  intro n
  induction n with
  | zero => exact fun a l _ => .inl ⟨a, l, rfl⟩
  | succ n ih =>
    intro p a l hp
    rw [requestLoop_succ, requestLoop_succ]
    by_cases hc : p.curPos ≤ p.length - 1
    · rw [if_pos hc, if_pos (show (swap s a l p).curPos ≤ (swap s a l p).length - 1 from hc)]
      rcases follows_requestTurn string2l a l hp with ⟨a', l', hx⟩ | ⟨q, hx, hq⟩
      · rw [hx]
        rcases hy : p.requestTurn string2l with q | q
        · exact .inl ⟨a', l', rfl⟩
        · exact ih a' l' ((requestTurn_settings string2l hy).trans hp)
      · rw [hx]
        exact .inr hq
    · rw [if_neg hc, if_neg (show ¬(swap s a l p).curPos ≤ (swap s a l p).length - 1 from hc)]
      exact follows_complete s a l hp

theorem follows_processRequestBuffer (a : List Argv) (l : List Event)
    (hp : p.parserSettings = okSettings) :
    Follows s (p.processRequestBuffer string2l).resetRedisParser
      ((swap s a l p).processRequestBuffer string2l).resetRedisParser := by
  rcases follows_requestLoop (s := s) string2l (p.length.toNat + 1) a l hp with ⟨a', l', h⟩ | h
  · refine .inl ⟨a', l', ?_⟩
    exact congrArg resetRedisParser h
  · exact .inr h

/-- **Up to the first callback that fails the parser goes the way it goes when none fails.** -/
theorem processInputBuffer_swap {q : Req} {h : Bytes} (hp : Ready p q h) (a : List Argv)
    (l : List Event) (c : Bytes) :
    Follows s (p.processInputBuffer string2l c)
      ((swap s a l p).processInputBuffer string2l c) := by
  obtain ⟨len, hlen⟩ : ∃ len, toInt32 (p.halfArgv ++ c).length = len := ⟨_, rfl⟩
  have hlen' : toInt32 ((swap s a l p).halfArgv ++ c).length = len := hlen
  rw [processInputBuffer_eq hp c hlen]
  have hstat : (swap s a l p).statusCode = .initDone ∨ (swap s a l p).statusCode = .half ∨
      (swap s a l p).statusCode = .done := hp.status
  have hptype := hp.ptype
  unfold processInputBuffer
  rw [if_neg (by simp [swap, hp.fault]), if_pos hstat]
  dsimp only
  rw [hlen']
  split
  · exact follows_processRequestBuffer string2l a l (p := { p with
      inputBuf := p.halfArgv ++ c, length := len }) hp.settings
  · simp_all [swap]
  · simp_all [swap]

/-! ### Calls with any callbacks -/

/-- `p` stands between two calls as a parser does whose callbacks return `0`. -/
def Able (s : RedisParserSettings) (p : RedisParser) (q : Req) (h : Bytes) : Prop :=
  ∃ y, Ready y q h ∧ SwapOf s y p

/-- How a call ends whose buffer is scanned to the end `e`. -/
def Goes (s : RedisParserSettings) (e : End) (p : RedisParser) : Prop :=
  CallbackFailed p ∨ match e with
    | .wait q r => Able s p q r ∧ p.statusCode = if q = .fresh then .done else .half
    | .error c => p.fault = none ∧ p.statusCode = .error ∧ p.errorCode = c
    | .fault f => p.fault = some f

theorem able_fresh (s : RedisParserSettings) : Able s (freshRequest s) .fresh [] :=
  ⟨freshRequest okSettings, ready_fresh, [], [], rfl⟩

/-- **One call**, whatever the callbacks do. -/
theorem able_call {q : Req} {h c : Bytes} (hp : Able s p q h) (hc : c ≠ [])
    (hlen : (h ++ c).length < 2 ^ 31) :
    Goes s (call string2l q (h ++ c)).2 (p.processInputBuffer string2l c) := by
  obtain ⟨y, hy, a, l, rfl⟩ := hp
  rcases processInputBuffer_swap (s := s) string2l hy a l c with hx | hx
  swap
  · exact .inl hx
  refine .inr ?_
  have hE := processInputBuffer_ends string2l hy hc hlen
  rcases hcall : call string2l q (h ++ c) with ⟨em, ⟨q', r⟩ | e | f⟩ <;> rw [hcall] at hE
  · have hfresh : q' = .fresh → r = [] :=
      (scan_wait (n := (h ++ c).length + 1) (l := (h ++ c).length) (by rw [← call, hcall])).2
    have hst : (y.processInputBuffer string2l c).statusCode =
        if q' = .fresh then .done else .half := by
      have := hE.stands
      cases q' <;> exact this.2.1
    refine ⟨⟨_, hy.next hE hfresh, hx⟩, ?_⟩
    obtain ⟨a', l', hx⟩ := hx
    rw [hx]
    exact hst
  · obtain ⟨hf, hs, he, -⟩ := hE.stands
    obtain ⟨a', l', hx⟩ := hx
    rw [hx]
    exact ⟨hf, hs, he⟩
  · obtain ⟨hf, -⟩ := hE.stands
    obtain ⟨a', l', hx⟩ := hx
    rw [hx]
    exact hf

section Able
variable {q : Req} {h : Bytes} (hp : Able s p q h)
include hp

theorem Able.fault : p.fault = none := by
  obtain ⟨y, hy, a, l, rfl⟩ := hp
  exact hy.fault

theorem Able.status : p.statusCode = .initDone ∨ p.statusCode = .half ∨ p.statusCode = .done := by
  obtain ⟨y, hy, a, l, rfl⟩ := hp
  exact hy.status

theorem Able.half : p.halfArgv = h := by
  obtain ⟨y, hy, a, l, rfl⟩ := hp
  exact hy.half

theorem Able.rep : Rep p q := by
  obtain ⟨y, hy, a, l, rfl⟩ := hp
  have := hy.rep
  cases q <;> exact this

end Able

end Pink.Redis.Callbacks
