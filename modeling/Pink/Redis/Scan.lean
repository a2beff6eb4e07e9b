import Pink.Redis.Parser

/-! # The parser as a machine on the unread bytes

`ProcessRequestBuffer` without positions: `Req` is the progress inside the current request, and
`step` is one move on the bytes not yet read: a request line, a multibulk header, or one argument
with its header. The two loops of the source are one here, `scan`. The machine stops when it needs
more bytes (`wait`), at an error, or at a fault.

The only place where a move depends on more than the unread bytes is the size limit of an
unterminated inline line, which the source compares with the length of the whole buffer: this
length is the argument `len`. -/

namespace Pink.Redis.Scan

open Pink.Redis.Wire Pink.Redis.Split2args Pink.Redis.Parser

/-- The progress inside a request: none of it read, an inline line, a multibulk request whose
header is not read, or `mlen` arguments to come, the next one of length `blen` (`-1` as long as its
header is not read). -/
inductive Req
  | fresh | inline | header
  | bulks (mlen blen : ℤ) (argv : Argv)
  deriving DecidableEq, Repr

inductive Move
  /-- More bytes are needed behind `r`. -/
  | wait (q : Req) (r : Bytes)
  | error (e : RedisParserError)
  | fault (f : Fault)
  | next (q : Req) (r : Bytes)
  /-- The request is complete. -/
  | emit (argv : Argv) (r : Bytes)
  deriving DecidableEq, Repr

variable (string2l : Bytes → ℕ → Option ℤ)

/-- The number between the type byte of `r` and the byte before the line feed at `i`. -/
def num (r : Bytes) (i : ℕ) : Option ℤ := string2l (r.drop 1) (sizeT ((i : ℤ) - 2))

/-- The type of a request is that of its first byte. -/
def settle (q : Req) (r : Bytes) : Req :=
  match q with
  | .fresh => if peek r 0 = ch '*' then .header else .inline
  | q => q

def inlineMove (len : ℤ) (r : Bytes) : Move :=
  match r.idxOf? LF with
  | none => if len > REDIS_INLINE_MAXLEN then .error .fullError else .wait .inline r
  | some i =>
    match split2args r with
    | none => .error .protoError
    | some argv => .emit argv (r.drop (i + 1))

/-- An empty multibulk request is complete, but only if there are bytes behind it. -/
def headerMove (r : Bytes) : Move :=
  match r.idxOf? LF with
  | none => .wait .header r
  | some i =>
    if i = 0 then .fault .assertion
    else
      match num string2l r i with
      | none => .error .protoError
      | some v =>
        if r.drop (i + 1) = [] then .wait (if v = 0 then .header else .bulks v (-1) []) []
        else if v = 0 then .emit [] (r.drop (i + 1))
        else .next (.bulks v (-1) []) (r.drop (i + 1))

def payloadMove (mlen blen : ℤ) (argv : Argv) (r : Bytes) : Move :=
  if blen + 2 > LONG_MAX then .fault .longOverflow
  else if (r.length : ℤ) < blen + 2 then .wait (.bulks mlen blen argv) r
  else if blen < 0 then .fault .lengthError
  else if mlen = LONG_MIN then .fault .longOverflow
  else if mlen - 1 = 0 then .emit (argv ++ [r.take blen.toNat]) (r.drop (blen + 2).toNat)
  else .next (.bulks (mlen - 1) (-1) (argv ++ [r.take blen.toNat])) (r.drop (blen + 2).toNat)

def bulkMove (mlen blen : ℤ) (argv : Argv) (r : Bytes) : Move :=
  if blen = -1 then
    match r.idxOf? LF with
    | none => .wait (.bulks mlen blen argv) r
    | some i =>
      if peek r 0 ≠ ch '$' then .error .protoError
      else
        match num string2l r i with
        | none => .error .protoError
        | some v =>
          if r.drop (i + 1) = [] then .wait (.bulks mlen v argv) []
          else payloadMove mlen v argv (r.drop (i + 1))
  else payloadMove mlen blen argv r

/-- **One move.** -/
def step (len : ℤ) (q : Req) (r : Bytes) : Move :=
  match settle q r with
  | .bulks mlen blen argv => bulkMove string2l mlen blen argv r
  | .header => headerMove string2l r
  | _ => inlineMove len r

/-- How a scan ends. -/
inductive End
  | wait (q : Req) (r : Bytes)
  | error (e : RedisParserError)
  | fault (f : Fault)
  deriving DecidableEq, Repr

/-- Add a completed request to what comes behind it; an empty one is not delivered. -/
def deliver (argv : Argv) (x : List Argv × End) : List Argv × End :=
  if argv = [] then x else (argv :: x.1, x.2)

/-- **The scan of a buffer**: the commands delivered, and how it ends. Every move but the last
takes at least one byte, so as much fuel as there are bytes is never used up. -/
def scan (len : ℤ) : ℕ → Req → Bytes → List Argv × End
  | 0, _, _ => ([], .fault .fuel)
  | n + 1, q, r =>
    if q = .fresh ∧ r = [] then ([], .wait .fresh [])
    else
      match step string2l len q r with
      | .wait q r => ([], .wait q r)
      | .error e => ([], .error e)
      | .fault f => ([], .fault f)
      | .next q r => scan len n q r
      | .emit argv r => deliver argv (scan len n .fresh r)

/-- The scan that one call of `ProcessInputBuffer` does. -/
def call (q : Req) (r : Bytes) : List Argv × End :=
  scan string2l r.length (r.length + 1) q r

/-! ### Every move takes bytes -/

variable {string2l}

theorem headerMove_next {r r' : Bytes} {q : Req} (h : headerMove string2l r = .next q r') :
    ∃ i v, r.idxOf? LF = some i ∧ i ≠ 0 ∧ num string2l r i = some v ∧ v ≠ 0 ∧
      r.drop (i + 1) ≠ [] ∧ q = .bulks v (-1) [] ∧ r' = r.drop (i + 1) := by
  unfold headerMove at h
  split at h
  · cases h
  next i hi =>
    split at h
    · cases h
    next h0 =>
      split at h
      · cases h
      next v hv =>
        split_ifs at h with h1 h2
        cases h
        exact ⟨i, v, hi, h0, hv, h2, h1, rfl, rfl⟩

theorem headerMove_emit {r r' : Bytes} {argv : Argv} (h : headerMove string2l r = .emit argv r') :
    ∃ i, r.idxOf? LF = some i ∧ i ≠ 0 ∧ num string2l r i = some 0 ∧
      r.drop (i + 1) ≠ [] ∧ argv = [] ∧ r' = r.drop (i + 1) := by
  unfold headerMove at h
  split at h
  · cases h
  next i hi =>
    split at h
    · cases h
    next h0 =>
      split at h
      · cases h
      next v hv =>
        split_ifs at h with h1 h2
        cases h; subst h2
        exact ⟨i, hi, h0, hv, h1, rfl, rfl⟩

theorem inlineMove_emit {len : ℤ} {r r' : Bytes} {argv : Argv}
    (h : inlineMove len r = .emit argv r') :
    ∃ i, r.idxOf? LF = some i ∧ split2args r = some argv ∧ r' = r.drop (i + 1) := by
  unfold inlineMove at h
  rcases hi : r.idxOf? LF with _ | i <;> rw [hi] at h
  · dsimp only at h; split_ifs at h
  · rcases hs : split2args r with _ | a <;> rw [hs] at h <;> dsimp only at h
    · simp at h
    · cases h; exact ⟨i, rfl, rfl, rfl⟩

/-- What is left behind a payload: the argument and two bytes are taken. -/
theorem payloadMove_shorter {mlen blen : ℤ} {argv : Argv} {r r' : Bytes}
    (h : (∃ q, payloadMove mlen blen argv r = .next q r') ∨
      ∃ a, payloadMove mlen blen argv r = .emit a r') : r'.length + 2 ≤ r.length := by
  unfold payloadMove at h
  split_ifs at h with h1 h2 h3 h4 h5
  · simp at h
  · simp at h
  · simp at h
  · simp at h
  all_goals
    simp only [Move.next.injEq, Move.emit.injEq, exists_false, or_false, false_or,
      exists_and_right] at h
    obtain ⟨-, rfl⟩ := h
    rw [List.length_drop]; omega

theorem length_drop_idxOf? {r : Bytes} {i : ℕ} (h : r.idxOf? LF = some i) :
    (r.drop (i + 1)).length + (i + 1) = r.length := by
  obtain ⟨hi, -⟩ := List.idxOf?_eq_some_iff.mp h
  rw [List.length_drop]; omega

variable (string2l) in
theorem bulkMove_cases (mlen blen : ℤ) (argv : Argv) (r : Bytes) :
    (∃ q r', bulkMove string2l mlen blen argv r = .wait q r') ∨
    (∃ e, bulkMove string2l mlen blen argv r = .error e) ∨
    ∃ v r', bulkMove string2l mlen blen argv r = payloadMove mlen v argv r' ∧
      r'.length ≤ r.length := by
  unfold bulkMove
  split
  · split
    · exact .inl ⟨_, _, rfl⟩
    next i hi =>
      split
      · exact .inr (.inl ⟨_, rfl⟩)
      · split
        · exact .inr (.inl ⟨_, rfl⟩)
        next v hv =>
          split
          · exact .inl ⟨_, _, rfl⟩
          · exact .inr (.inr ⟨v, _, rfl, by have := length_drop_idxOf? hi; omega⟩)
  · exact .inr (.inr ⟨blen, r, rfl, le_rfl⟩)

theorem bulkMove_shorter {mlen blen : ℤ} {argv : Argv} {r r' : Bytes}
    (h : (∃ q, bulkMove string2l mlen blen argv r = .next q r') ∨
      ∃ a, bulkMove string2l mlen blen argv r = .emit a r') : r'.length < r.length := by
  rcases bulkMove_cases string2l mlen blen argv r with ⟨q, s, e⟩ | ⟨c, e⟩ | ⟨v, s, e, hs⟩ <;>
    rw [e] at h
  · simp at h
  · simp at h
  · have := payloadMove_shorter h; omega

theorem inlineMove_shorter {len : ℤ} {r r' : Bytes}
    (h : (∃ q, inlineMove len r = .next q r') ∨ ∃ a, inlineMove len r = .emit a r') :
    r'.length < r.length := by
  rcases h with ⟨q, h⟩ | ⟨a, h⟩
  · -- an inline request is never left half read by a move
    unfold inlineMove at h
    split at h
    · split_ifs at h
    · split at h <;> simp at h
  · obtain ⟨i, hi, -, rfl⟩ := inlineMove_emit h
    have := length_drop_idxOf? hi
    omega

/-- **Every move but the last takes a byte.** -/
theorem step_shorter {len : ℤ} {q : Req} {r r' : Bytes}
    (h : (∃ q', step string2l len q r = .next q' r') ∨ ∃ a, step string2l len q r = .emit a r') :
    r'.length < r.length := by
  unfold step at h
  rcases hq : settle q r with _ | _ | _ | ⟨m, b, v⟩ <;> rw [hq] at h <;> dsimp only at h
  · exact inlineMove_shorter h
  · exact inlineMove_shorter h
  · rcases h with ⟨q', h⟩ | ⟨a, h⟩
    · obtain ⟨i, v, hi, -, -, -, -, -, rfl⟩ := headerMove_next h
      have := length_drop_idxOf? hi; omega
    · obtain ⟨i, hi, -, -, -, -, rfl⟩ := headerMove_emit h
      have := length_drop_idxOf? hi; omega
  · exact bulkMove_shorter h

theorem step_next_shorter {len : ℤ} {q q' : Req} {r r' : Bytes}
    (h : step string2l len q r = .next q' r') : r'.length < r.length := step_shorter (.inl ⟨q', h⟩)

theorem step_emit_shorter {len : ℤ} {q : Req} {a : Argv} {r r' : Bytes}
    (h : step string2l len q r = .emit a r') : r'.length < r.length := step_shorter (.inr ⟨a, h⟩)

/-- More fuel than bytes changes nothing. -/
theorem scan_fuel (len : ℤ) : ∀ (n m : ℕ) (q : Req) (r : Bytes), r.length < n → r.length < m →
    scan string2l len n q r = scan string2l len m q r
  | 0, _, _, _, h, _ => by omega
  | _, 0, _, _, _, h => by omega
  | n + 1, m + 1, q, r, hn, hm => by
    simp only [scan]
    split_ifs with h0
    · rfl
    · rcases hs : step string2l len q r with ⟨q', r'⟩ | e | f | ⟨q', r'⟩ | ⟨a, r'⟩ <;> dsimp only
      · have := step_next_shorter hs
        exact scan_fuel len n m q' r' (by omega) (by omega)
      · have := step_emit_shorter hs
        rw [scan_fuel len n m .fresh r' (by omega) (by omega)]

/-! ### What a move leaves -/

/-- The bytes that a move leaves. -/
def leaves : Move → Option Bytes
  | .wait _ r | .next _ r | .emit _ r => some r
  | _ => none

theorem payloadMove_leaves {m b : ℤ} {v : Argv} {r r' : Bytes}
    (h : leaves (payloadMove m b v r) = some r') : r' <:+ r := by
  unfold payloadMove at h
  split_ifs at h <;> cases h
  · exact List.suffix_rfl
  · exact List.drop_suffix _ _
  · exact List.drop_suffix _ _

theorem bulkMove_leaves {m b : ℤ} {v : Argv} {r r' : Bytes}
    (h : leaves (bulkMove string2l m b v r) = some r') : r' <:+ r := by
  unfold bulkMove at h
  by_cases hb : b = -1
  swap
  · rw [if_neg hb] at h
    exact payloadMove_leaves h
  rw [if_pos hb] at h
  rcases hi : r.idxOf? LF with _ | i <;> rw [hi] at h <;> dsimp only at h
  · cases h; exact List.suffix_rfl
  by_cases hd : peek r 0 ≠ ch '$'
  · rw [if_pos hd] at h
    cases h
  rw [if_neg hd] at h
  rcases hn : num string2l r i with _ | n <;> rw [hn] at h <;> dsimp only at h
  · cases h
  split_ifs at h
  · cases h; exact List.nil_suffix
  · exact (payloadMove_leaves h).trans (List.drop_suffix _ _)

theorem headerMove_leaves {r r' : Bytes} (h : leaves (headerMove string2l r) = some r') : r' <:+ r := by
  unfold headerMove at h
  rcases hi : r.idxOf? LF with _ | i <;> rw [hi] at h <;> dsimp only at h
  · cases h; exact List.suffix_rfl
  by_cases h0 : i = 0
  · rw [if_pos h0] at h
    cases h
  rw [if_neg h0] at h
  rcases hn : num string2l r i with _ | n <;> rw [hn] at h <;> dsimp only at h
  · cases h
  split_ifs at h <;> cases h
  · exact List.nil_suffix
  · exact List.nil_suffix
  · exact List.drop_suffix _ _
  · exact List.drop_suffix _ _

theorem inlineMove_leaves {len : ℤ} {r r' : Bytes} (h : leaves (inlineMove len r) = some r') :
    r' <:+ r := by
  unfold inlineMove at h
  rcases hi : r.idxOf? LF with _ | i <;> rw [hi] at h <;> dsimp only at h
  · split_ifs at h <;> cases h
    exact List.suffix_rfl
  rcases hs : split2args r with _ | argv <;> rw [hs] at h <;> cases h
  exact List.drop_suffix _ _

/-- **A move leaves a suffix of the unread bytes.** -/
theorem step_leaves {len : ℤ} {q : Req} {r r' : Bytes} (h : leaves (step string2l len q r) = some r') :
    r' <:+ r := by
  unfold step at h
  rcases hq : settle q r with _ | _ | _ | ⟨m, b, v⟩ <;> rw [hq] at h
  · exact inlineMove_leaves h
  · exact inlineMove_leaves h
  · exact headerMove_leaves h
  · exact bulkMove_leaves h

end Pink.Redis.Scan
