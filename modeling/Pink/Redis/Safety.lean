import Pink.Redis.Parser

/-! # Length safety of the parser

What the positions and lengths of the parser must be at every call that reads memory, over whole
runs, with any callbacks. The parser does not check the numbers of its headers: a negative count or
length, a length close to the end of `long`, and a header line of less than two bytes go through.
`HeaderOk` says of the state at the head of a loop that the header read there is none of these, and
`feed_safe` that a run in which all headers are of this kind is safe.

Every function of the parser appends to the log, so that a condition on the final log holds of every
log before it; `Keeps` carries this together with the invariant. -/

namespace Pink.Redis.Safety

open Pink.Redis.Wire Pink.Redis.Split2args Pink.Redis.Parser Pink.Redis.Parser.RedisParser

/-! ### What is safe -/

/-- A recorded call reads only inside the buffer, and the state at a loop head is in range. -/
def Safe : Event → Prop
  | .getNextNum curPos pos length =>
      curPos < pos ∧ 0 ≤ pos - curPos - 2 ∧ 0 ≤ curPos + 1 ∧
        (curPos + 1) + (pos - curPos - 2) ≤ length
  | .emplaceBack curPos bulkLen length =>
      0 ≤ bulkLen ∧ bulkLen + 2 ≤ LONG_MAX ∧ 0 ≤ curPos ∧ curPos + bulkLen + 2 ≤ length
  | .turn _ _ multibulkLen _ curPos length _ =>
      0 ≤ multibulkLen ∧ 0 ≤ curPos ∧ curPos ≤ length
  | _ => True

instance : DecidablePred Safe := fun e => by unfold Safe; split <;> infer_instance

/-- **A run is safe**: nothing faults, and all that was recorded is safe. -/
structure SafeRun (p : RedisParser) : Prop where
  fault : p.fault = none
  nonneg : 0 ≤ p.curPos
  le : p.curPos ≤ p.length
  mlen : 0 ≤ p.multibulkLen
  safe : ∀ e ∈ p.log, Safe e

/-! ### The headers -/

variable (string2l : Bytes → ℕ → Option ℤ)

/-- The header line at `curPos`, if it is complete, has two bytes or more before its line feed, and
its number, if it has one, is good. -/
def HeaderFits (good : ℤ → Prop) (curPos length : ℤ) (buf : Bytes) : Prop :=
  match ((buf.drop curPos.toNat).take (length - curPos).toNat).idxOf? LF with
  | none => True
  | some i => 2 ≤ i ∧
    match string2l (buf.drop (curPos + 1).toNat) (sizeT ((i : ℤ) - 2)) with
    | none => True
    | some v => good v

/-- A header read at this loop head is in order: a count is not negative, a length is not negative
and leaves room for the line end in a `long`. -/
def HeaderOk : Event → Prop
  | .turn .request redisType multibulkLen _ curPos length buf =>
      (redisType = .multibulk ∨ redisType = .unset ∧ peek buf curPos.toNat = ch '*') →
        multibulkLen = 0 → HeaderFits string2l (fun v => 0 ≤ v) curPos length buf
  | .turn .multibulk _ multibulkLen bulkLen curPos length buf =>
      multibulkLen ≠ 0 → bulkLen = -1 → peek buf curPos.toNat = ch '$' →
        HeaderFits string2l (fun v => 0 ≤ v ∧ v + 2 ≤ LONG_MAX) curPos length buf
  | _ => True

instance (good : ℤ → Prop) [DecidablePred good] (curPos length : ℤ) (buf : Bytes) :
    Decidable (HeaderFits string2l good curPos length buf) := by
  unfold HeaderFits
  split
  · infer_instance
  · have : ∀ o : Option ℤ, Decidable (match o with | none => True | some v => good v) := by
      rintro (_ | v) <;> infer_instance
    infer_instance

instance : DecidablePred (HeaderOk string2l) := fun e => by
  unfold HeaderOk; split <;> infer_instance

/-- All headers read so far are in order. -/
def Ok (p : RedisParser) : Prop := ∀ e ∈ p.log, HeaderOk string2l e

/-! ### The invariant -/

/-- What holds throughout a call. -/
structure Inv (p : RedisParser) : Prop extends SafeRun p where
  blen : -1 ≤ p.bulkLen ∧ p.bulkLen + 2 ≤ LONG_MAX

/-- From `p` to `p'` the log grows, and the invariant is kept if the headers are in order. -/
structure Keeps (p p' : RedisParser) : Prop where
  log : p.log <+: p'.log
  inv : Ok string2l p' → Inv p → Inv p'

variable {string2l} {p p' p'' : RedisParser}

theorem Ok.mono (h : Ok string2l p') (hl : p.log <+: p'.log) : Ok string2l p :=
  fun e he => h e (hl.subset he)

theorem Keeps.refl (p : RedisParser) : Keeps string2l p p := ⟨List.prefix_rfl, fun _ h => h⟩

theorem Keeps.trans (h1 : Keeps string2l p p') (h2 : Keeps string2l p' p'') :
    Keeps string2l p p'' :=
  ⟨h1.log.trans h2.log, fun hok hi => h2.inv hok (h1.inv (hok.mono h2.log) hi)⟩

theorem Inv.record {e : Event} (h : Inv p) (he : Safe e) : Inv (p.record e) := by
  refine ⟨⟨h.fault, h.nonneg, h.le, h.mlen, fun e' he' => ?_⟩, h.blen⟩
  rcases List.mem_append.mp he' with h' | h'
  · exact h.safe e' h'
  · rw [List.mem_singleton.mp h']; exact he

theorem keeps_recordTurn (loop : Loop) : Keeps string2l p (p.recordTurn loop) :=
  ⟨List.prefix_append _ _, fun _ h => h.record ⟨h.mlen, h.nonneg, h.le⟩⟩

variable (string2l) in
theorem keeps_setParserStatus (s : RedisParserStatus) (e : RedisParserError) :
    Keeps string2l p (p.setParserStatus s e) := by
  unfold setParserStatus cacheHalfArgv
  constructor
  · split_ifs <;> exact List.prefix_rfl
  · intro _ h
    split_ifs
    · exact ⟨⟨h.fault, h.nonneg.trans h.le, le_rfl, h.mlen, h.safe⟩, h.blen⟩
    · exact ⟨⟨h.fault, h.nonneg, h.le, h.mlen, h.safe⟩, h.blen⟩

/-- The request is not complete. -/
def Stopped (p : RedisParser) : Prop := p.fault ≠ none ∨ p.statusCode ≠ .done

/-- What a piece of a function's body does: it keeps the invariant; the function returns from it
with an incomplete request, or goes on behind it and has then moved on in the buffer. -/
def FlowKeeps (string2l : Bytes → ℕ → Option ℤ) (p : RedisParser) : Flow → Prop
  | .ret p' => Keeps string2l p p' ∧ Stopped p'
  | .next p' => Keeps string2l p p' ∧ (Ok string2l p' → Inv p →
      p.curPos < p'.curPos ∧ p'.length = p.length)

theorem Keeps.flow {x : Flow} (h : Keeps string2l p p') (hc : p'.curPos = p.curPos)
    (hl : p'.length = p.length) (hx : FlowKeeps string2l p' x) : FlowKeeps string2l p x := by
  cases x with
  | ret q => exact ⟨h.trans hx.1, hx.2⟩
  | next q =>
    refine ⟨h.trans hx.1, fun hok hi => ?_⟩
    have := hx.2 hok (h.inv (hok.mono hx.1.log) hi)
    rwa [hc, hl] at this

/-! ### Headers -/

theorem keeps_raise {f : Fault} (h : Ok string2l p → Inv p → False) :
    Keeps string2l p (p.raise f) :=
  ⟨List.prefix_rfl, fun hok hi => (h hok hi).elim⟩

theorem keeps_of_log (hl : p'.log = p.log) (h : Ok string2l p → Inv p → Inv p') :
    Keeps string2l p p' := by
  refine ⟨by rw [hl], fun hok hi => h ?_ hi⟩
  unfold Ok at hok; rwa [hl] at hok

theorem flow_raise {f : Fault} (h : Ok string2l p → Inv p → False) :
    FlowKeeps string2l p (.ret (p.raise f)) := ⟨keeps_raise h, .inl (by simp [raise])⟩

theorem flow_status {s : RedisParserStatus} {e : RedisParserError} (hs : s ≠ .done) :
    FlowKeeps string2l p (.ret (p.setParserStatus s e)) :=
  ⟨keeps_setParserStatus string2l _ _, .inr hs⟩

/-- The header at `cur_pos_` is in order. -/
abbrev Header (string2l : Bytes → ℕ → Option ℤ) (good : ℤ → Prop) (p : RedisParser) : Prop :=
  HeaderFits string2l good p.curPos p.length p.inputBuf

section Header
variable {good : ℤ → Prop} {i : ℕ} (hi : p.rest.idxOf? LF = some i)
include hi

theorem Header.two_le (h : Header string2l good p) : 2 ≤ i := by
  unfold Header HeaderFits at h
  unfold rest at hi
  rw [hi] at h
  exact h.1

theorem Header.value {v : ℤ} (h : Header string2l good p)
    (hv : string2l (p.inputBuf.drop (p.curPos + 1).toNat) (sizeT ((i : ℤ) - 2)) = some v) :
    good v := by
  unfold Header HeaderFits at h
  unfold rest at hi
  rw [hi] at h
  dsimp only at h
  rw [hv] at h
  exact h.2

theorem lt_length (h : Inv p) : p.curPos + i < p.length := by
  have hlt := (List.idxOf?_eq_some_iff.mp hi).1
  have hle := h.le
  rw [rest, List.length_take] at hlt
  omega

theorem keeps_getNextNum (hdr : Ok string2l p → Header string2l good p) :
    Keeps string2l p (p.record (.getNextNum p.curPos (p.curPos + i) p.length)) := by
  refine ⟨List.prefix_append _ _, fun hok h => h.record ?_⟩
  have h2 := (hdr (hok.mono (List.prefix_append _ _))).two_le hi
  have hlt := lt_length hi h
  have hnn := h.nonneg
  exact ⟨by omega, by omega, by omega, by omega⟩

end Header

/-- How a header is read: the number, unless the line is too short. -/
theorem getNextNum_cases (p : RedisParser) (i : ℕ) : p.getNextNum string2l (p.curPos + i) =
    if i = 0 then .error .assertion
    else .ok (string2l (p.inputBuf.drop (p.curPos + 1).toNat) (sizeT ((i : ℤ) - 2))) := by
  unfold getNextNum
  by_cases h0 : i = 0
  · rw [if_neg (by omega), if_pos h0]
  · rw [if_pos (by omega), if_neg h0]
    congr 3; omega

theorem findNextSeparators_cases (p : RedisParser) :
    p.findNextSeparators = .error .assertion ∧ ¬ p.curPos ≤ p.length ∨
    p.findNextSeparators = .ok none ∨
    ∃ i : ℕ, p.rest.idxOf? LF = some i ∧ p.findNextSeparators = .ok (some (p.curPos + i)) := by
  unfold findNextSeparators
  by_cases h : p.curPos ≤ p.length
  · rw [if_pos h]
    rcases hi : p.rest.idxOf? LF with _ | i
    · exact .inr (.inl rfl)
    · exact .inr (.inr ⟨i, rfl, rfl⟩)
  · rw [if_neg h]; exact .inl ⟨rfl, h⟩

/-- Reading the number of a header line that ends at `i`; `g v` is the state behind it. -/
theorem readNum_keeps {good : ℤ → Prop} {i : ℕ} {g : ℤ → RedisParser}
    (hi : p.rest.idxOf? LF = some i) (hdr : Ok string2l p → Header string2l good p)
    (hlog : ∀ v, (g v).log = p.log) (hcur : ∀ v, (g v).curPos = p.curPos + i + 1)
    (hlen : ∀ v, (g v).length = p.length) (hinv : ∀ v, good v → Inv p → Inv (g v)) :
    FlowKeeps string2l p
      (match p.getNextNum string2l (p.curPos + i) with
        | .error f => .ret (p.raise f)
        | .ok none => .ret (p.setParserStatus .error .protoError)
        | .ok (some v) =>
          if (g v).curPos > (g v).length - 1 then .ret ((g v).setParserStatus .half)
          else .next (g v)) := by
  rw [getNextNum_cases]
  by_cases h0 : i = 0
  · rw [if_pos h0]
    exact flow_raise fun hok _ => by have := (hdr hok).two_le hi; omega
  rw [if_neg h0]
  rcases hv : string2l (p.inputBuf.drop (p.curPos + 1).toNat) (sizeT ((i : ℤ) - 2)) with _ | v
  · exact flow_status (by simp)
  have hk : Keeps string2l p (g v) :=
    keeps_of_log (hlog v) fun hok h => hinv v ((hdr hok).value hi hv) h
  dsimp only
  split_ifs
  · exact ⟨hk.trans (keeps_setParserStatus string2l _ _), .inr (by simp [setParserStatus])⟩
  · exact ⟨hk, fun _ _ => ⟨by rw [hcur]; omega, hlen v⟩⟩

/-- Behind a header the function goes on with a good number. -/
theorem readNum_next {good : ℤ → Prop} {i : ℕ} {g : ℤ → RedisParser}
    (hi : p.rest.idxOf? LF = some i) (hdr : Ok string2l p → Header string2l good p)
    (hx : (match p.getNextNum string2l (p.curPos + i) with
        | .error f => .ret (p.raise f)
        | .ok none => .ret (p.setParserStatus .error .protoError)
        | .ok (some v) =>
          if (g v).curPos > (g v).length - 1 then .ret ((g v).setParserStatus .half)
          else .next (g v)) = Flow.next p') : ∃ v, p' = g v ∧ (Ok string2l p → good v) := by
  rw [getNextNum_cases] at hx
  by_cases h0 : i = 0
  · rw [if_pos h0] at hx; cases hx
  rw [if_neg h0] at hx
  rcases hv : string2l (p.inputBuf.drop (p.curPos + 1).toNat) (sizeT ((i : ℤ) - 2)) with _ | v <;>
    rw [hv] at hx <;> dsimp only at hx
  · cases hx
  · split_ifs at hx
    cases hx
    exact ⟨v, rfl, fun hok => (hdr hok).value hi hv⟩

/-- The header of `p` is the header of `p` with a call recorded. -/
theorem header_record {good : ℤ → Prop} {e : Event}
    (hdr : Ok string2l p → Header string2l good p) :
    Ok string2l (p.record e) → Header string2l good (p.record e) :=
  fun hok => hdr (hok.mono (List.prefix_append _ _))

theorem multibulkHeader_keeps (hdr : Ok string2l p → Header string2l (fun v => 0 ≤ v) p) :
    FlowKeeps string2l p (p.multibulkHeader string2l) := by
  unfold multibulkHeader
  rcases findNextSeparators_cases p with ⟨he, hlt⟩ | he | ⟨i, hi, he⟩ <;> rw [he] <;> dsimp only
  · exact flow_raise fun _ h => hlt h.le
  · exact flow_status (by simp)
  refine (keeps_getNextNum hi hdr).flow rfl rfl ?_
  refine readNum_keeps (p := p.record (.getNextNum p.curPos (p.curPos + i) p.length))
    (g := fun v => { p.record (.getNextNum p.curPos (p.curPos + i) p.length) with
      multibulkLen := v, curPos := p.curPos + i + 1, argv := [] })
    hi (header_record hdr) (fun _ => rfl) (fun _ => rfl) (fun _ => rfl) fun v hv h => ?_
  have hlt : p.curPos + i < p.length := lt_length (p := p.record _) hi h
  have hnn : 0 ≤ p.curPos := h.nonneg
  exact ⟨⟨h.fault, show 0 ≤ p.curPos + i + 1 by omega, show p.curPos + i + 1 ≤ p.length by omega,
    hv, h.safe⟩, h.blen⟩

theorem bulkHeader_keeps (hdr : Ok string2l p → peek p.inputBuf p.curPos.toNat = ch '$' →
      Header string2l (fun v => 0 ≤ v ∧ v + 2 ≤ LONG_MAX) p) :
    FlowKeeps string2l p (p.bulkHeader string2l) := by
  unfold bulkHeader
  rcases findNextSeparators_cases p with ⟨he, hlt⟩ | he | ⟨i, hi, he⟩ <;> rw [he] <;> dsimp only
  · exact flow_raise fun _ h => hlt h.le
  · exact flow_status (by simp)
  by_cases hd : peek p.inputBuf p.curPos.toNat ≠ ch '$'
  · rw [if_pos hd]; exact flow_status (by simp)
  rw [if_neg hd]
  have hdr := fun hok => hdr hok (not_not.mp hd)
  refine (keeps_getNextNum hi hdr).flow rfl rfl ?_
  refine readNum_keeps (p := p.record (.getNextNum p.curPos (p.curPos + i) p.length))
    (g := fun v => { p.record (.getNextNum p.curPos (p.curPos + i) p.length) with
      bulkLen := v, curPos := p.curPos + i + 1 })
    hi (header_record hdr) (fun _ => rfl) (fun _ => rfl) (fun _ => rfl) fun v hv h => ?_
  have hlt : p.curPos + i < p.length := lt_length (p := p.record _) hi h
  have hnn : 0 ≤ p.curPos := h.nonneg
  exact ⟨⟨h.fault, show 0 ≤ p.curPos + i + 1 by omega, show p.curPos + i + 1 ≤ p.length by omega,
    h.mlen, h.safe⟩, show -1 ≤ v ∧ v + 2 ≤ LONG_MAX by omega⟩

theorem bulkHeader_next (hdr : Ok string2l p → peek p.inputBuf p.curPos.toNat = ch '$' →
      Header string2l (fun v => 0 ≤ v ∧ v + 2 ≤ LONG_MAX) p)
    (hx : p.bulkHeader string2l = .next p') :
    p'.multibulkLen = p.multibulkLen ∧ (Ok string2l p' → 0 ≤ p'.bulkLen) := by
  unfold bulkHeader at hx
  rcases findNextSeparators_cases p with ⟨he, hlt⟩ | he | ⟨i, hi, he⟩ <;> rw [he] at hx <;>
    dsimp only at hx
  · cases hx
  · cases hx
  by_cases hd : peek p.inputBuf p.curPos.toNat ≠ ch '$'
  · rw [if_pos hd] at hx; cases hx
  rw [if_neg hd] at hx
  have hdr := fun hok => hdr hok (not_not.mp hd)
  obtain ⟨v, rfl, hv⟩ := readNum_next (p := p.record (.getNextNum p.curPos (p.curPos + i) p.length))
    (g := fun v => { p.record (.getNextNum p.curPos (p.curPos + i) p.length) with
      bulkLen := v, curPos := p.curPos + i + 1 }) hi (header_record hdr) hx
  exact ⟨rfl, fun hok => (hv hok).1⟩

/-! ### The loops -/

theorem takeBulk_keeps (hb : Ok string2l p → Inv p → 0 ≤ p.bulkLen)
    (hm : p.multibulkLen ≠ 0) : FlowKeeps string2l p p.takeBulk := by
  unfold takeBulk
  by_cases h1 : p.bulkLen + 2 > LONG_MAX
  · rw [if_pos h1]; exact flow_raise fun _ h => by have := h.blen; omega
  rw [if_neg h1]
  by_cases h2 : p.length - 1 - p.curPos + 1 < p.bulkLen + 2
  · rw [if_pos h2, multibulkExit, if_neg hm]; exact flow_status (by simp)
  rw [if_neg h2]
  have hk : Keeps string2l p (p.record (.emplaceBack p.curPos p.bulkLen p.length)) := by
    refine ⟨List.prefix_append _ _, fun hok h => h.record ?_⟩
    have hb' := hb (hok.mono (List.prefix_append _ _)) h
    exact ⟨hb', by omega, h.nonneg, by omega⟩
  refine hk.flow rfl rfl ?_
  have hok1 : Ok string2l (p.record (.emplaceBack p.curPos p.bulkLen p.length)) →
      Ok string2l p := fun hok => hok.mono (List.prefix_append _ _)
  have hinv1 : Inv (p.record (.emplaceBack p.curPos p.bulkLen p.length)) → Inv p := fun h =>
    ⟨⟨h.fault, h.nonneg, h.le, h.mlen, fun e he => h.safe e (List.mem_append_left _ he)⟩, h.blen⟩
  dsimp only
  split_ifs with h3 h4
  · exact flow_raise fun hok h => absurd (hb (hok1 hok) (hinv1 h)) (not_le.mpr h3)
  · refine flow_raise fun hok h => ?_
    have h0 := h.mlen
    rw [h4] at h0
    exact absurd h0 (by decide)
  replace h3 : ¬ p.bulkLen < 0 := h3
  refine ⟨keeps_of_log rfl fun hok h => ?_, fun _ _ => ⟨?_, rfl⟩⟩
  · have h0 := (hinv1 h).mlen
    have hnn := (hinv1 h).nonneg
    exact ⟨⟨h.fault, show 0 ≤ p.curPos + p.bulkLen + 2 by omega,
      show p.curPos + p.bulkLen + 2 ≤ p.length by omega,
      show 0 ≤ p.multibulkLen - 1 by omega, h.safe⟩,
      show -1 ≤ (-1 : ℤ) ∧ -1 + 2 ≤ LONG_MAX by decide⟩
  · show p.curPos < p.curPos + p.bulkLen + 2
    omega

theorem bulkTurn_keeps (hm : p.multibulkLen ≠ 0)
    (hdr : Ok string2l p → p.bulkLen = -1 → peek p.inputBuf p.curPos.toNat = ch '$' →
      Header string2l (fun v => 0 ≤ v ∧ v + 2 ≤ LONG_MAX) p) :
    FlowKeeps string2l p (p.bulkTurn string2l) := by
  unfold bulkTurn
  by_cases hb : p.bulkLen = -1
  · rw [if_pos hb]
    have hk := bulkHeader_keeps fun hok => hdr hok hb
    rcases hx : p.bulkHeader string2l with p1 | p1 <;> rw [hx] at hk
    · exact hk
    · dsimp only
      obtain ⟨hmlen, hblen⟩ := bulkHeader_next (fun hok => hdr hok hb) hx
      have ht : FlowKeeps string2l p1 p1.takeBulk :=
        takeBulk_keeps (fun hok _ => hblen hok) (hmlen.trans_ne hm)
      rcases hy : p1.takeBulk with p2 | p2 <;> rw [hy] at ht
      · exact ⟨hk.1.trans ht.1, ht.2⟩
      · refine ⟨hk.1.trans ht.1, fun hok h => ?_⟩
        have hok1 := hok.mono ht.1.log
        obtain ⟨c1, l1⟩ := hk.2 hok1 h
        obtain ⟨c2, l2⟩ := ht.2 hok (hk.1.inv hok1 h)
        exact ⟨c1.trans c2, l2.trans l1⟩
  · rw [if_neg hb]
    exact takeBulk_keeps (fun _ h => by have := h.blen; omega) hm

/-- The state behind a loop: the invariant, and if the request is complete, how far it got. -/
structure Looped (p p' : RedisParser) : Prop where
  inv : Inv p'
  moved : p'.statusCode = .done → p.curPos ≤ p'.curPos ∧
    (p.multibulkLen ≠ 0 → p.curPos < p'.curPos) ∧ p'.length = p.length

variable (string2l) in
/-- **The loop over the arguments.** `Q` is what is known if all went well up to here; the fuel
suffices then, since every turn moves on. -/
theorem multibulkLoop_keeps : ∀ (n : ℕ) (p : RedisParser) (Q : Prop),
    (Q → Inv p ∧ p.length - p.curPos < n) →
    p.log <+: (p.multibulkLoop string2l n).log ∧
    (Ok string2l (p.multibulkLoop string2l n) → Q → Looped p (p.multibulkLoop string2l n))
  | 0, p, Q, hq => by
    refine ⟨List.prefix_rfl, fun _ hQ => ?_⟩
    obtain ⟨h, hlt⟩ := hq hQ
    have := h.le; omega
  | n + 1, p, Q, hq => by
    have hk : Keeps string2l p (p.recordTurn .multibulk) := keeps_recordTurn _
    rw [multibulkLoop]
    by_cases hm : (p.recordTurn .multibulk).multibulkLen = 0
    · rw [if_pos hm, multibulkExit, if_pos hm]
      have hks := hk.trans (keeps_setParserStatus string2l .done .ok)
      exact ⟨hks.log, fun hok hQ => ⟨hks.inv hok (hq hQ).1,
        fun _ => ⟨le_rfl, fun h0 => absurd hm h0, rfl⟩⟩⟩
    rw [if_neg hm]
    have hmem : Event.turn .multibulk p.redisType p.multibulkLen p.bulkLen p.curPos p.length
        p.inputBuf ∈ (p.recordTurn .multibulk).log := by simp [recordTurn, record]
    have ht : FlowKeeps string2l p ((p.recordTurn .multibulk).bulkTurn string2l) :=
      hk.flow rfl rfl (bulkTurn_keeps hm fun hok hb hd => hok _ hmem hm hb hd)
    rcases hx : (p.recordTurn .multibulk).bulkTurn string2l with p1 | p1 <;> rw [hx] at ht
    · refine ⟨ht.1.log, fun hok hQ => ⟨ht.1.inv hok (hq hQ).1, fun hdone => ?_⟩⟩
      rcases ht.2 with hf | hs
      · exact absurd (ht.1.inv hok (hq hQ).1).fault hf
      · exact absurd hdone hs
    · obtain ⟨i1, i2⟩ := multibulkLoop_keeps n p1 (Ok string2l p1 ∧ Q) fun ⟨hok, hQ⟩ => by
        obtain ⟨h, hlt⟩ := hq hQ
        obtain ⟨hc, hl⟩ := ht.2 hok h
        exact ⟨ht.1.inv hok h, by omega⟩
      dsimp only
      refine ⟨ht.1.log.trans i1, fun hok hQ => ?_⟩
      have hok1 := hok.mono i1
      obtain ⟨j1, j2⟩ := i2 hok ⟨hok1, hQ⟩
      obtain ⟨hc, hl⟩ := ht.2 hok1 (hq hQ).1
      refine ⟨j1, fun hdone => ?_⟩
      obtain ⟨m1, -, m3⟩ := j2 hdone
      exact ⟨by omega, fun _ => by omega, m3.trans hl⟩

variable (string2l) in
/-- The request loop's view of `ProcessMultibulkBuffer`: a complete request has moved on. -/
theorem processMultibulkBuffer_keeps
    (hdr : Ok string2l p → p.multibulkLen = 0 → Header string2l (fun v => 0 ≤ v) p) :
    p.log <+: (p.processMultibulkBuffer string2l).log ∧
    (Ok string2l (p.processMultibulkBuffer string2l) → Inv p →
      Inv (p.processMultibulkBuffer string2l) ∧
      ((p.processMultibulkBuffer string2l).statusCode = .done →
        p.curPos < (p.processMultibulkBuffer string2l).curPos ∧
        (p.processMultibulkBuffer string2l).length = p.length)) := by
  unfold processMultibulkBuffer
  by_cases hm : p.multibulkLen = 0
  · rw [if_pos hm]
    have hk := multibulkHeader_keeps fun hok => hdr hok hm
    rcases hx : p.multibulkHeader string2l with p1 | p1 <;> rw [hx] at hk
    · refine ⟨hk.1.log, fun hok h => ⟨hk.1.inv hok h, fun hdone => ?_⟩⟩
      rcases hk.2 with hf | hs
      · exact absurd (hk.1.inv hok h).fault hf
      · exact absurd hdone hs
    · obtain ⟨i1, i2⟩ := multibulkLoop_keeps string2l (p1.length.toNat + 1) p1
        (Inv p1) fun h => ⟨h, by have := h.nonneg; have := h.le; omega⟩
      dsimp only
      refine ⟨hk.1.log.trans i1, fun hok h => ?_⟩
      have hok1 := hok.mono i1
      obtain ⟨hc, hl⟩ := hk.2 hok1 h
      obtain ⟨j1, j2⟩ := i2 hok (hk.1.inv hok1 h)
      exact ⟨j1, fun hdone => ⟨by have := (j2 hdone).1; omega, (j2 hdone).2.2.trans hl⟩⟩
  · rw [if_neg hm]
    obtain ⟨i1, i2⟩ := multibulkLoop_keeps string2l (p.length.toNat + 1) p
      (Inv p) fun h => ⟨h, by have := h.nonneg; have := h.le; omega⟩
    refine ⟨i1, fun hok h => ?_⟩
    obtain ⟨j1, j2⟩ := i2 hok h
    exact ⟨j1, fun hdone => ⟨(j2 hdone).2.1 hm, (j2 hdone).2.2⟩⟩

variable (string2l) in
theorem processInlineBuffer_keeps : Keeps string2l p p.processInlineBuffer ∧
    (Inv p → p.processInlineBuffer.statusCode = .done →
      p.curPos < p.processInlineBuffer.curPos ∧ p.processInlineBuffer.length = p.length) := by
  unfold processInlineBuffer
  rcases findNextSeparators_cases p with ⟨he, hlt⟩ | he | ⟨i, hi, he⟩ <;> rw [he] <;> dsimp only
  · exact ⟨keeps_raise fun _ h => hlt h.le, fun h => absurd h.le hlt⟩
  · split_ifs
    · exact ⟨keeps_setParserStatus string2l _ _, fun _ hs => by simp [setParserStatus] at hs⟩
    · exact ⟨keeps_setParserStatus string2l _ _, fun _ hs => by simp [setParserStatus] at hs⟩
  have hk : ∀ argv, Keeps string2l p { p with argv := argv, curPos := p.curPos + i + 1 } :=
    fun argv => keeps_of_log rfl fun _ h => by
      have hlt := lt_length hi h
      have hnn := h.nonneg
      exact ⟨⟨h.fault, show 0 ≤ p.curPos + i + 1 by omega,
        show p.curPos + i + 1 ≤ p.length by omega, h.mlen, h.safe⟩, h.blen⟩
  rcases split2args (p.inputBuf.drop p.curPos.toNat) with _ | argv
  · exact ⟨(hk []).trans (keeps_setParserStatus string2l _ _),
      fun _ hs => by simp [setParserStatus] at hs⟩
  · refine ⟨(hk argv).trans (keeps_setParserStatus string2l _ _), fun _ _ => ⟨?_, rfl⟩⟩
    show p.curPos < p.curPos + i + 1
    omega

/-! ### The outer loop -/

variable (string2l) in
theorem keeps_record {e : Event} (he : Safe e) : Keeps string2l p (p.record e) :=
  ⟨List.prefix_append _ _, fun _ h => h.record he⟩

theorem keeps_resetCommandStatus : Keeps string2l p p.resetCommandStatus :=
  keeps_of_log rfl fun _ h => ⟨⟨h.fault, h.nonneg, h.le, le_rfl, h.safe⟩,
    show -1 ≤ (-1 : ℤ) ∧ -1 + 2 ≤ LONG_MAX by decide⟩

variable (string2l) in
theorem deliver_keeps (p : RedisParser) :
    (∃ p', p.deliver = .ret p' ∧ Keeps string2l p p' ∧ Stopped p') ∨
    ∃ p', p.deliver = .next p' ∧ Keeps string2l p p' ∧ p'.curPos = p.curPos ∧
      p'.length = p.length := by
  unfold deliver
  by_cases ha : p.argv = []
  · rw [if_pos ha]
    exact .inr ⟨_, rfl, keeps_resetCommandStatus, rfl, rfl⟩
  rw [if_neg ha]
  have hk : Keeps string2l p { p with argvs := p.argvs ++ [p.argv], argv := [] } :=
    keeps_of_log rfl fun _ h => ⟨⟨h.fault, h.nonneg, h.le, h.mlen, h.safe⟩, h.blen⟩
  dsimp only
  rcases p.parserSettings.dealMessage with _ | dealMessage
  · exact .inr ⟨_, rfl, hk.trans keeps_resetCommandStatus, rfl, rfl⟩
  · have hk1 := hk.trans (keeps_record string2l (e := .dealMessage p.argv) trivial)
    dsimp only
    split_ifs
    · exact .inl ⟨_, rfl, hk1.trans (keeps_setParserStatus string2l _ _),
        .inr (by simp [setParserStatus])⟩
    · exact .inr ⟨_, rfl, hk1.trans keeps_resetCommandStatus, rfl, rfl⟩

/-- Behind a request: return if it is not complete, else deliver it. -/
theorem afterRequest_keeps (hlog : p.log <+: p'.log)
    (hinv : Ok string2l p' → Inv p → Inv p' ∧ (p'.statusCode = .done →
      p.curPos < p'.curPos ∧ p'.length = p.length)) : FlowKeeps string2l p p'.afterRequest := by
  have hk : Keeps string2l p p' := ⟨hlog, fun hok h => (hinv hok h).1⟩
  unfold afterRequest
  by_cases hs : p'.fault ≠ none ∨ p'.statusCode ≠ .done
  · rw [if_pos hs]; exact ⟨hk, hs⟩
  rw [if_neg hs]
  push Not at hs
  rcases deliver_keeps string2l p' with ⟨p1, hd, hk1, hst⟩ | ⟨p1, hd, hk1, hc, hl⟩
  · rw [hd]; exact ⟨hk.trans hk1, hst⟩
  · rw [hd]
    refine ⟨hk.trans hk1, fun hok h => ?_⟩
    have := (hinv (hok.mono hk1.log) h).2 hs.2
    rwa [hc, hl]

variable (string2l) in
theorem setRedisType_keeps : Keeps string2l p p.setRedisType ∧
    p.setRedisType.curPos = p.curPos ∧ p.setRedisType.length = p.length ∧
    p.setRedisType.inputBuf = p.inputBuf ∧ p.setRedisType.multibulkLen = p.multibulkLen ∧
    p.setRedisType.log = p.log ∧ (p.setRedisType.redisType ≠ .inline → p.redisType = .multibulk ∨
      p.redisType = .unset ∧ peek p.inputBuf p.curPos.toNat = ch '*') := by
  unfold setRedisType
  split_ifs with h1 h2
  · refine ⟨Keeps.refl p, rfl, rfl, rfl, rfl, rfl, fun h3 => .inl ?_⟩
    cases h : p.redisType
    · exact absurd h h1
    · exact absurd h h3
    · rfl
  · refine ⟨keeps_of_log rfl fun _ h => ⟨⟨h.fault, h.nonneg, h.le, h.mlen, h.safe⟩, h.blen⟩,
      rfl, rfl, rfl, rfl, rfl, fun _ => .inr ⟨by simpa using h1, h2⟩⟩
  · exact ⟨keeps_of_log rfl fun _ h => ⟨⟨h.fault, h.nonneg, h.le, h.mlen, h.safe⟩, h.blen⟩,
      rfl, rfl, rfl, rfl, rfl, fun h3 => absurd rfl h3⟩

variable (string2l) in
/-- **A turn of the request loop.** -/
theorem requestTurn_keeps : FlowKeeps string2l p (p.requestTurn string2l) := by
  have hk : Keeps string2l p (p.recordTurn .request) := keeps_recordTurn _
  have hmem : Event.turn .request p.redisType p.multibulkLen p.bulkLen p.curPos p.length
      p.inputBuf ∈ (p.recordTurn .request).log := by simp [recordTurn, record]
  obtain ⟨hk1, hc, hl, hb, hm, hlog, hty⟩ := setRedisType_keeps string2l
    (p := p.recordTurn .request)
  unfold requestTurn
  refine (hk.trans hk1).flow hc hl ?_
  dsimp only
  split_ifs with hin
  · obtain ⟨i1, i2⟩ := processInlineBuffer_keeps string2l
      (p := (p.recordTurn .request).setRedisType)
    exact afterRequest_keeps i1.log fun hok h => ⟨i1.inv hok h, fun hs => i2 h hs⟩
  · obtain ⟨i1, i2⟩ := processMultibulkBuffer_keeps string2l
      (p := (p.recordTurn .request).setRedisType) fun hok hm0 => by
        unfold Header
        rw [hc, hl, hb]
        have hev : HeaderOk string2l _ := hok _ (by rw [hlog]; exact hmem)
        exact hev (hty hin) (by rw [← hm0, hm]; rfl)
    exact afterRequest_keeps i1 i2

variable (string2l) in
theorem complete_keeps : Keeps string2l p p.complete := by
  have hk : Keeps string2l p { p with argvs := [] } :=
    keeps_of_log rfl fun _ h => ⟨⟨h.fault, h.nonneg, h.le, h.mlen, h.safe⟩, h.blen⟩
  unfold complete
  rcases p.parserSettings.complete with _ | complete
  · exact hk.trans (keeps_setParserStatus string2l _ _)
  · have hk1 := hk.trans (keeps_record string2l
      (e := .complete (p.argvs.map lowerName)) trivial)
    dsimp only
    split_ifs
    · exact hk1.trans (keeps_setParserStatus string2l _ _)
    · exact hk1.trans (keeps_setParserStatus string2l _ _)

variable (string2l) in
theorem requestLoop_keeps : ∀ (n : ℕ) (p : RedisParser) (Q : Prop),
    (Q → Inv p ∧ p.length - p.curPos < n) →
    p.log <+: (p.requestLoop string2l n).log ∧
    (Ok string2l (p.requestLoop string2l n) → Q → Inv (p.requestLoop string2l n))
  | 0, p, Q, hq => by
    refine ⟨List.prefix_rfl, fun _ hQ => ?_⟩
    obtain ⟨h, hlt⟩ := hq hQ
    have := h.le; omega
  | n + 1, p, Q, hq => by
    rw [requestLoop]
    by_cases hc : p.curPos ≤ p.length - 1
    swap
    · rw [if_neg hc]
      exact ⟨(complete_keeps string2l).log,
        fun hok hQ => (complete_keeps string2l).inv hok (hq hQ).1⟩
    rw [if_pos hc]
    have ht := requestTurn_keeps string2l (p := p)
    rcases hx : p.requestTurn string2l with p1 | p1 <;> rw [hx] at ht
    · exact ⟨ht.1.log, fun hok hQ => ht.1.inv hok (hq hQ).1⟩
    · obtain ⟨i1, i2⟩ := requestLoop_keeps n p1 (Ok string2l p1 ∧ Q) fun ⟨hok, hQ⟩ => by
        obtain ⟨h, hlt⟩ := hq hQ
        obtain ⟨hc, hl⟩ := ht.2 hok h
        exact ⟨ht.1.inv hok h, by omega⟩
      exact ⟨ht.1.log.trans i1, fun hok hQ => i2 hok ⟨hok.mono i1, hQ⟩⟩

/-! ### Runs -/

/-- Between two calls. -/
structure Rest (p : RedisParser) : Prop extends Inv p where
  cur : p.curPos = 0

variable (string2l) in
/-- What a call does, by the state of the parser. -/
theorem processInputBuffer_cases (p : RedisParser) (c : Bytes) {L : ℤ}
    (hL : toInt32 (p.halfArgv ++ c).length = L) :
    p.processInputBuffer string2l c = p ∨
    p.processInputBuffer string2l c = p.setParserStatus .error .initError ∨
    p.processInputBuffer string2l c = (processRequestBuffer string2l
      { p with inputBuf := p.halfArgv ++ c, length := L }).resetRedisParser ∨
    p.processInputBuffer string2l c = (processResponseBuffer
      { p with inputBuf := p.halfArgv ++ c, length := L }).resetRedisParser ∨
    p.processInputBuffer string2l c = setParserStatus
      { p with inputBuf := p.halfArgv ++ c, length := L } .error .initError := by
  subst hL
  unfold processInputBuffer
  split_ifs
  · exact .inl rfl
  · dsimp only
    split
    · exact .inr (.inr (.inl rfl))
    · exact .inr (.inr (.inr (.inl rfl)))
    · exact .inr (.inr (.inr (.inr rfl)))
  · exact .inr (.inl rfl)

variable (string2l) in
/-- **One call.** -/
theorem processInputBuffer_keeps {c : Bytes} (hlen : (p.halfArgv ++ c).length < 2 ^ 31) :
    p.log <+: (p.processInputBuffer string2l c).log ∧
    (Ok string2l (p.processInputBuffer string2l c) → Rest p →
      Rest (p.processInputBuffer string2l c)) := by
  have hL := toInt32_of_lt hlen
  have hinv : Rest p →
      Inv { p with inputBuf := p.halfArgv ++ c, length := (p.halfArgv ++ c).length } := fun h =>
    ⟨⟨h.fault, h.nonneg, by have := h.cur; simp only; omega, h.mlen, h.safe⟩, h.blen⟩
  rcases processInputBuffer_cases string2l p c hL with e | e | e | e | e <;> rw [e]
  · exact ⟨List.prefix_rfl, fun _ h => h⟩
  · have hk := keeps_setParserStatus string2l (p := p) .error .initError
    exact ⟨hk.log, fun hok h => ⟨hk.inv hok h.toInv, h.cur⟩⟩
  · obtain ⟨i1, i2⟩ := requestLoop_keeps string2l
      (((p.halfArgv ++ c).length : ℤ).toNat + 1)
      { p with inputBuf := p.halfArgv ++ c, length := (p.halfArgv ++ c).length } (Rest p)
      fun h => ⟨hinv h, by have := h.cur; simp only; omega⟩
    refine ⟨i1, fun hok h => ?_⟩
    have hi := i2 hok h
    exact ⟨⟨⟨hi.fault, le_rfl, le_rfl, hi.mlen, hi.safe⟩, hi.blen⟩, rfl⟩
  · refine ⟨List.prefix_rfl, fun _ h => ?_⟩
    exact ⟨⟨⟨h.fault, le_rfl, le_rfl, h.mlen, h.safe⟩, h.blen⟩, rfl⟩
  · refine ⟨List.prefix_rfl, fun _ h => ⟨⟨⟨h.fault, h.nonneg, (hinv h).le, h.mlen, h.safe⟩, h.blen⟩,
      h.cur⟩⟩

/-- The buffer of every call is shorter than `2 ^ 31` bytes. -/
def Bounded (string2l : Bytes → ℕ → Option ℤ) : RedisParser → List Bytes → Prop
  | _, [] => True
  | p, c :: cs => (p.halfArgv ++ c).length < 2 ^ 31 ∧
      Bounded string2l (p.processInputBuffer string2l c) cs

instance decidableBounded : ∀ p cs, Decidable (Bounded string2l p cs)
  | _, [] => .isTrue trivial
  | p, c :: cs =>
    have := decidableBounded (p.processInputBuffer string2l c) cs
    inferInstanceAs (Decidable (_ ∧ _))

theorem feed_keeps : ∀ (cs : List Bytes) (p : RedisParser), Bounded string2l p cs →
    p.log <+: (p.feed string2l cs).log ∧
    (Ok string2l (p.feed string2l cs) → Rest p → Rest (p.feed string2l cs)) := by
  intro cs
  induction cs with
  | nil =>
    intro p _
    exact ⟨List.prefix_rfl, fun _ h => h⟩
  | cons c cs ih =>
    rintro p ⟨hlen, hb⟩
    obtain ⟨h1, h2⟩ := processInputBuffer_keeps string2l hlen
    obtain ⟨i1, i2⟩ := ih _ hb
    exact ⟨h1.trans i1, fun hok h => i2 hok (h2 (hok.mono i1) h)⟩

theorem rest_fresh (settings : RedisParserSettings) : Rest (freshRequest settings) :=
  ⟨⟨⟨rfl, le_rfl, le_rfl, le_rfl, by intro e he; cases he⟩,
    show -1 ≤ (-1 : ℤ) ∧ -1 + 2 ≤ LONG_MAX by decide⟩, rfl⟩

/-- **A run whose headers are all in order is safe**, with any callbacks and however the stream is
cut. -/
theorem feed_safe (settings : RedisParserSettings) (cs : List Bytes)
    (hlen : Bounded string2l (freshRequest settings) cs)
    (hok : ∀ e ∈ ((freshRequest settings).feed string2l cs).log, HeaderOk string2l e) :
    SafeRun ((freshRequest settings).feed string2l cs) :=
  ((feed_keeps cs _ hlen).2 hok (rest_fresh settings)).toSafeRun

theorem feed_safe_ping : SafeRun
    ((freshRequest okSettings).feed Wire.string2l [bytes "*1\r\n$4\r\nPI", bytes "NG\r\n"]) :=
  feed_safe okSettings [bytes "*1\r\n$4\r\nPI", bytes "NG\r\n"] (by decide +kernel)
    (by decide +kernel)

/-- A bulk header with a negative length is taken at its word. -/
theorem not_safe_negative_bulk :
    ¬ SafeRun ((freshRequest okSettings).feed Wire.string2l [bytes "*1\r\n$-2\r\nx"]) := by
  intro h
  have hmem : Event.emplaceBack 9 (-2) 10 ∈
      ((freshRequest okSettings).feed Wire.string2l [bytes "*1\r\n$-2\r\nx"]).log := by
    decide +kernel
  have hsafe := h.safe _ hmem
  revert hsafe
  decide

end Pink.Redis.Safety
