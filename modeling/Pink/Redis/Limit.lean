import Pink.Lib.Runs
import Pink.Redis.Callbacks
import Pink.Redis.RoundTrip
import Pink.Redis.Safety

/-! # The size limit of an inline line

`REDIS_INLINE_MAXLEN` is meant for the inline line that is being received, but the parser compares
it with the length of the buffer, which may hold complete requests in front of the line. `openLine`
is that line: the one at which the scan of the buffer without a limit ends. The limited scan is the
unlimited one with another end (`scan_limit`), and the parser rejects a line within the limit exactly
when the buffer is longer than the limit (`fullOnLong_iff`). -/

namespace Pink.Redis.Limit

open Pink.Redis.Wire Pink.Redis.Split2args Pink.Redis.Parser Pink.Redis.Parser.RedisParser
open Pink.Redis.Scan Pink.Redis.Refine Pink.Redis.Fragment Pink.Redis.Safety Pink.Redis.Callbacks
open Pink.Redis.Format Pink.Redis.RoundTrip Pink.Lib.Runs

variable (string2l : Bytes → ℕ → Option ℤ)

/-! ### The line being received -/

/-- The progress that the fields of the parser hold. -/
def progress (p : RedisParser) : Req :=
  match p.redisType with
  | .unset => .fresh
  | .inline => .inline
  | .multibulk =>
    if p.multibulkLen = 0 then .header else .bulks p.multibulkLen p.bulkLen p.argv

theorem progress_of_rep {p : RedisParser} {q : Req} (h : Rep p q) : progress p = q := by
  unfold progress
  cases q with
  | fresh => rw [h.1]
  | inline => rw [h.1]
  | header => rw [h.1]; exact if_pos h.2.1
  | bulks m b v =>
    obtain ⟨h1, rfl, h3, rfl, rfl⟩ := h
    rw [h1]
    exact if_neg h3

/-- **The unterminated inline line at the end of a buffer**, if the buffer ends in one. -/
def openLine (q : Req) (buf : Bytes) : Option Bytes :=
  match (scan string2l 0 (buf.length + 1) q buf).2 with
  | .wait .inline line => some line
  | _ => none

/-! ### The limited scan -/

/-- The move on a buffer of length `len`, given the one without a limit. -/
def limitMove (len : ℤ) : Move → Move
  | .wait .inline r => if len > REDIS_INLINE_MAXLEN then .error .fullError else .wait .inline r
  | m => m

def limitEnd (len : ℤ) : End → End
  | .wait .inline r => if len > REDIS_INLINE_MAXLEN then .error .fullError else .wait .inline r
  | e => e

theorem limit_zero : ¬((0 : ℤ) > REDIS_INLINE_MAXLEN) := by decide

theorem inlineMove_limit (len : ℤ) (r : Bytes) :
    inlineMove len r = limitMove len (inlineMove 0 r) := by
  unfold inlineMove
  rcases r.idxOf? LF with _ | i
  · dsimp only
    rw [if_neg limit_zero]
    rfl
  · dsimp only
    rcases split2args r with _ | argv <;> rfl

variable {string2l}

theorem headerMove_ne_inline {r s : Bytes} : headerMove string2l r ≠ .wait .inline s := by
  intro h
  unfold headerMove at h
  split at h
  · cases h
  · split at h
    · cases h
    · split at h
      · cases h
      · split_ifs at h <;> cases h

theorem payloadMove_ne_inline {m b : ℤ} {v : Argv} {r s : Bytes} :
    payloadMove m b v r ≠ .wait .inline s := by
  intro h
  unfold payloadMove at h
  split_ifs at h
  cases h

theorem bulkMove_ne_inline {m b : ℤ} {v : Argv} {r s : Bytes} :
    bulkMove string2l m b v r ≠ .wait .inline s := by
  intro h
  unfold bulkMove at h
  split at h
  · split at h
    · cases h
    · split at h
      · cases h
      · split at h
        · cases h
        · split at h
          · cases h
          · exact payloadMove_ne_inline h
  · exact payloadMove_ne_inline h

theorem limitMove_eq {len : ℤ} {m : Move} (h : ∀ s, m ≠ .wait .inline s) : limitMove len m = m := by
  unfold limitMove
  split
  · exact absurd rfl (h _)
  · rfl

variable (string2l)

theorem step_limit (len : ℤ) (q : Req) (r : Bytes) :
    step string2l len q r = limitMove len (step string2l 0 q r) := by
  unfold step
  split
  · exact (limitMove_eq fun s => bulkMove_ne_inline).symm
  · exact (limitMove_eq fun s => headerMove_ne_inline).symm
  · exact inlineMove_limit len r

/-- **The scan of a buffer of length `len`** is the scan without a limit, but for its end. -/
theorem scan_limit (len : ℤ) : ∀ (n : ℕ) (q : Req) (r : Bytes),
    (scan string2l len n q r).2 = limitEnd len (scan string2l 0 n q r).2 := by
  intro n
  induction n with
  | zero => exact fun _ _ => rfl
  | succ n ih =>
    intro q r
    simp only [scan]
    by_cases hfr : q = .fresh ∧ r = []
    · rw [if_pos hfr, if_pos hfr]
      rfl
    rw [if_neg hfr, if_neg hfr, step_limit string2l len q r]
    rcases hm : step string2l 0 q r with ⟨_ | _ | _ | _, s⟩ | e | f | ⟨q', s⟩ | ⟨argv, s⟩
    · rfl
    · dsimp only [limitMove, limitEnd]
      split_ifs <;> rfl
    · rfl
    · rfl
    · rfl
    · rfl
    · exact ih q' s
    · dsimp only [limitMove]
      rw [deliver_snd, deliver_snd]
      exact ih .fresh s

theorem inlineMove_ne_full (r : Bytes) : inlineMove 0 r ≠ .error .fullError := by
  unfold inlineMove
  rcases r.idxOf? LF with _ | i
  · dsimp only
    rw [if_neg limit_zero]
    simp
  · dsimp only
    rcases split2args r with _ | argv <;> simp

theorem step_ne_full (q : Req) (r : Bytes) : step string2l 0 q r ≠ .error .fullError := by
  unfold step
  split
  · intro h
    unfold bulkMove payloadMove at h
    repeat' split at h
    all_goals cases h
  · intro h
    unfold headerMove at h
    repeat' split at h
    all_goals cases h
  · exact inlineMove_ne_full r

theorem scan_ne_full : ∀ (n : ℕ) (q : Req) (r : Bytes),
    (scan string2l 0 n q r).2 ≠ .error .fullError := by
  intro n
  induction n with
  | zero => simp [scan]
  | succ n ih =>
    intro q r
    simp only [scan]
    split_ifs
    · simp
    · have hs := step_ne_full string2l q r
      rcases hm : step string2l 0 q r with ⟨p, s⟩ | e | f | ⟨p, s⟩ | ⟨argv, s⟩ <;> dsimp only
      · simp
      · rw [hm] at hs
        simpa using hs
      · simp
      · exact ih p s
      · rw [deliver_snd]
        exact ih .fresh s

/-- The call rejects a line for its size if the whole buffer is longer than the limit. -/
theorem call_full_iff (q : Req) (buf : Bytes) : (call string2l q buf).2 = .error .fullError ↔
    (openLine string2l q buf).isSome ∧ (buf.length : ℤ) > REDIS_INLINE_MAXLEN := by
  have hne := scan_ne_full string2l (buf.length + 1) q buf
  rw [call, scan_limit, openLine]
  generalize (scan string2l 0 (buf.length + 1) q buf).2 = x at hne ⊢
  rcases x with ⟨_ | _ | _ | _, s⟩ | e | f <;> simp [limitEnd]
  rintro rfl
  exact hne rfl

/-! ### Runs -/

/-- **The call is rejected for its size only if the line being received is longer than the
limit.** -/
def FullOnLong (p : RedisParser) (c : Bytes) : Prop :=
  (p.processInputBuffer string2l c).fault = none →
  (p.processInputBuffer string2l c).statusCode = .error →
  (p.processInputBuffer string2l c).errorCode = .fullError →
  ∃ line ∈ openLine string2l (progress p) (p.halfArgv ++ c), line.length > REDIS_INLINE_MAXLEN

/-- If a parser that goes on is to receive a line within the limit, then together with all that is
in front of it in the buffer it is within the limit. -/
def LineAlone (p : RedisParser) (c : Bytes) : Prop :=
  p.fault = none → p.statusCode ≠ .error →
  ∀ line ∈ openLine string2l (progress p) (p.halfArgv ++ c), line.length ≤ REDIS_INLINE_MAXLEN →
    (p.halfArgv ++ c).length ≤ REDIS_INLINE_MAXLEN

/-- A call with at least one byte and a buffer whose length is an `int`. -/
def Fits (p : RedisParser) (c : Bytes) : Prop := c ≠ [] ∧ (p.halfArgv ++ c).length < 2 ^ 31

instance (p : RedisParser) (c : Bytes) : Decidable (Fits p c) := instDecidableAnd

instance (p : RedisParser) (c : Bytes) : Decidable (LineAlone string2l p c) :=
  inferInstanceAs (Decidable (_ → _ → ∀ line ∈ openLine string2l _ _, _ → _))

variable {string2l} {s : RedisParserSettings} {p : RedisParser}

/-- What stands between two calls: a parser that can go on, or one that has stopped. -/
def Between (s : RedisParserSettings) (p : RedisParser) : Prop :=
  (∃ q h, Able s p q h) ∨ p.fault ≠ none ∨ p.statusCode = .error

theorem processInputBuffer_fault (hf : p.fault ≠ none) (c : Bytes) :
    p.processInputBuffer string2l c = p := by
  rw [processInputBuffer, if_pos hf]

theorem processInputBuffer_error (hf : p.fault = none) (hs : p.statusCode = .error) (c : Bytes) :
    p.processInputBuffer string2l c = p.setParserStatus .error .initError := by
  rw [processInputBuffer, if_neg (by simp [hf]), if_neg (by simp [hs])]

theorem between_call {c : Bytes} (h : Between s p) (hc : Fits p c) :
    Between s (p.processInputBuffer string2l c) := by
  rcases h with ⟨q, h, hp⟩ | hf | hs
  · obtain rfl := hp.half
    rcases able_call string2l hp hc.1 hc.2 with hx | hx
    · exact .inr (.inr hx.1)
    rcases hcall : (call string2l q (p.halfArgv ++ c)).2 with ⟨q', r⟩ | e | f <;> rw [hcall] at hx
    · exact .inl ⟨q', r, hx.1⟩
    · exact .inr (.inr hx.2.1)
    · exact .inr (.inl (by rw [hx]; simp))
  · rw [processInputBuffer_fault hf]
    exact .inr (.inl hf)
  · by_cases hf : p.fault = none
    · rw [processInputBuffer_error hf hs]
      exact .inr (.inr rfl)
    · rw [processInputBuffer_fault hf]
      exact .inr (.inl hf)

/-- A parser that has stopped does not report a size. -/
theorem fullOnLong_of_stopped (h : p.fault ≠ none ∨ p.statusCode = .error) (c : Bytes) :
    FullOnLong string2l p c := by
  intro hf' _ he
  by_cases hf : p.fault = none
  · rw [processInputBuffer_error hf (h.resolve_left (not_not.mpr hf))] at he
    cases he
  · rw [processInputBuffer_fault hf] at hf'
    exact absurd hf' hf

theorem fullOnLong_call {c : Bytes} (h : Between s p) (hc : Fits p c)
    (hg : LineAlone string2l p c) : FullOnLong string2l p c := by
  rcases h with ⟨q, h, hp⟩ | hstop
  swap
  · exact fullOnLong_of_stopped hstop c
  obtain rfl := hp.half
  have hg := hg hp.fault (by rcases hp.status with h | h | h <;> simp [h])
  intro hf hs he
  rw [progress_of_rep hp.rep] at hg ⊢
  rcases able_call string2l hp hc.1 hc.2 with ⟨-, hx | hx⟩ | hx
  · rw [he] at hx; cases hx
  · rw [he] at hx; cases hx
  rcases hcall : (call string2l q (p.halfArgv ++ c)).2 with ⟨q', r⟩ | e | f <;> rw [hcall] at hx
  · rw [hx.2] at hs
    split_ifs at hs
  · obtain ⟨-, -, rfl⟩ := hx
    rw [he, call_full_iff] at hcall
    obtain ⟨line, hline⟩ := Option.isSome_iff_exists.mp hcall.1
    refine ⟨line, hline, ?_⟩
    by_contra hle
    have := hg line hline (not_lt.mp hle)
    exact absurd hcall.2 (not_lt.mpr this)
  · rw [hf] at hx; cases hx

/-- **The limit concerns the line alone** in every run whose calls all meet the condition. -/
theorem guarded_fullOnLong (settings : RedisParserSettings) (cs : List Bytes)
    (hcs : Guarded (processInputBuffer string2l) Fits (freshRequest settings) cs)
    (hg : Guarded (processInputBuffer string2l) (LineAlone string2l) (freshRequest settings) cs) :
    Guarded (processInputBuffer string2l) (FullOnLong string2l) (freshRequest settings) cs :=
  guarded_of_inv (Between settings) (fun _ _ h hc => between_call h hc.1)
    (fun _ _ h hc => fullOnLong_call h hc.1 hc.2) (.inl ⟨_, _, able_fresh settings⟩) (hcs.and hg)

/-- A request, and a line behind it that goes on in the next chunk. -/
theorem guarded_fullOnLong_ping :
    Guarded (processInputBuffer Wire.string2l) (FullOnLong Wire.string2l) (freshRequest okSettings)
      [bytes "*1\r\n$4\r\nPING\r\nGE", bytes "T a\r\n"] :=
  guarded_fullOnLong okSettings [bytes "*1\r\n$4\r\nPING\r\nGE", bytes "T a\r\n"]
    (by decide +kernel) (by decide +kernel)

/-- With callbacks that return `0` the condition is exact. -/
theorem fullOnLong_iff {q : Req} {h c : Bytes} (hp : Ready p q h) (hc : Fits p c) :
    FullOnLong string2l p c ↔ LineAlone string2l p c := by
  have hable : Able okSettings p q h := ⟨p, hp, p.argvs, p.log, by rw [← hp.settings]; rfl⟩
  refine ⟨fun hfull _ _ line hline hle => ?_, fullOnLong_call (.inl ⟨q, h, hable⟩) hc⟩
  obtain rfl := hp.half
  rw [progress_of_rep hp.rep] at hline
  by_contra hlt
  have hcall : (call string2l q (p.halfArgv ++ c)).2 = .error .fullError :=
    (call_full_iff string2l q _).mpr ⟨Option.isSome_iff_exists.mpr ⟨line, hline⟩, not_le.mp hlt⟩
  have hE := processInputBuffer_ends string2l hp hc.1 hc.2
  rcases hx : call string2l q (p.halfArgv ++ c) with ⟨em, e⟩
  rw [hx] at hcall hE
  obtain rfl : e = .error .fullError := hcall
  obtain ⟨h1, h2, h3, -⟩ := hE.stands
  obtain ⟨line', hline', hlong⟩ := hfull h1 h2 h3
  rw [progress_of_rep hp.rep, hline] at hline'
  obtain rfl := Option.some.inj hline'
  exact absurd hle (not_le.mpr hlong)

/-- A request whose argument has `2 ^ 16` bytes. -/
def longRequest : Bytes := commandBytes [List.replicate 65536 (ch 'a')]

theorem length_longRequest : longRequest.length = 65550 := by
  have h1 : (decimalNat 1).length = 1 := by decide +kernel
  have h2 : (decimalNat 65536).length = 5 := by decide +kernel
  have key : ∀ a : Bytes, a.length = 65536 → (commandBytes [a]).length = 65550 := fun a ha => by
    simp [commandBytes, bulkBytes, ha, h1, h2]
  exact key _ List.length_replicate

theorem openLine_longRequest :
    openLine Wire.string2l .fresh (longRequest ++ bytes "PING") = some (bytes "PING") := by
  have hping : Reads Wire.string2l 4 0 .fresh (bytes "PING") ([], .wait .inline (bytes "PING")) :=
    ⟨by decide +kernel, by decide +kernel⟩
  have hlen := length_longRequest
  have hread := reads_command string2l_spec (c := [List.replicate 65536 (ch 'a')])
    (List.cons_ne_nil _ _) (by rw [← longRequest]; omega) hping
  rw [openLine, longRequest, hread.scan, deliver_snd]

/-- A line of four bytes is rejected for its size when it comes behind a long request. -/
theorem not_fullOnLong :
    Fits (freshRequest okSettings) (longRequest ++ bytes "PING") ∧
      ¬FullOnLong Wire.string2l (freshRequest okSettings) (longRequest ++ bytes "PING") := by
  have hlen : (longRequest ++ bytes "PING").length = 65554 := by
    rw [List.length_append, length_longRequest]
    rfl
  have hfits : Fits (freshRequest okSettings) (longRequest ++ bytes "PING") := by
    refine ⟨fun h => ?_, ?_⟩
    · rw [h] at hlen; cases hlen
    · show (longRequest ++ bytes "PING").length < 2 ^ 31
      omega
  refine ⟨hfits, fun h => ?_⟩
  have hle := (fullOnLong_iff ready_fresh hfits).mp h rfl (by decide) (bytes "PING")
    openLine_longRequest (by decide)
  change ((longRequest ++ bytes "PING").length : ℤ) ≤ _ at hle
  rw [hlen] at hle
  exact absurd hle (by decide)

end Pink.Redis.Limit
