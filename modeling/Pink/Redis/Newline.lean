import Pink.Redis.Pointers
import Pink.Redis.Window

/-! # The search for a line end with its reads

`seekNewline` on the memory from `s` on, with every read recorded in the order and with the short
circuits of the source; where the fuel of a loop is used up there is no result. A loop that has
enough fuel reads no byte behind `_len` and computes what its counterpart of `Cli` computes.

So the search ends, stays in the bytes it is given, and finds the first line end (`LineEnd`) among
them (`seekNewline_isLeast`). While the window of a reader is inside its buffer, no search for a line
of a reply leaves the window. -/

namespace Pink.Redis.Newline

open Pink.Redis.Wire Pink.Lib.Reads Pink.Lib.Runs
open Pink.Redis.Split2args (peek)
open Pink.Redis.Pointers (read read_within)
open Pink.Redis.Cli (RedisCli ReadResult)
open Pink.Redis.Recv (EndsAt)
open Pink.Redis.Window (InBounds Honest step recvsOps connected connected_inBounds step_inBounds)

/-! ### The model -/

/-- `while (pos < _len && s[pos] != '\r') pos++;` -/
def skipToCR (s : Bytes) (len : ℤ) : ℕ → ℕ → Scan (Option ℕ)
  | 0, _ => return none
  | fuel + 1, pos => do
    if (pos : ℤ) < len then
      let b ← read s pos
      if b ≠ CR then skipToCR s len fuel (pos + 1) else return some pos
    else return some pos

/-- The outer loop of `seekNewline`; `len` is `_len`. -/
def seekNewlineLoop (s : Bytes) (len : ℤ) : ℕ → ℕ → Scan (Option (Option ℕ))
  | 0, _ => return none
  | fuel + 1, pos => do
    if (pos : ℤ) < len then
      match ← skipToCR s len (len.toNat + 1) pos with
      | none => return none
      | some pos =>
        -- the byte is read before `pos` is compared with `_len`
        let b ← read s pos
        if b ≠ CR ∨ (pos : ℤ) ≥ len then return some none
        else
          let b ← read s (pos + 1)
          if b = LF then return some (some pos) else seekNewlineLoop s len fuel (pos + 1)
    else return some none

/-- `seekNewline(s, len)`: the distance of the result from `s`, or `NULL`. The difference `len - 1` is
taken in `size_t` and then converted to `int`; `pos` stays between `0` and `_len`. -/
def seekNewline (s : Bytes) (len : ℕ) : Scan (Option (Option ℕ)) :=
  let len := toInt32 (subSize len 1)
  seekNewlineLoop s len (len.toNat + 1) 0

/-- In the first `len` bytes of `s` a line end begins at `i`. -/
def LineEnd (s : Bytes) (len i : ℕ) : Prop := i + 1 < len ∧ EndsAt s i

/-! ### The loops -/

section Loops
variable {s : Bytes} {n : ℕ}

theorem skipToCR_spec : ∀ (fuel : ℕ) {pos : ℕ}, pos ≤ n → n ≤ pos + fuel →
    (skipToCR s n (fuel + 1) pos).Within n ∧
      (skipToCR s n (fuel + 1) pos).val = some (Cli.skipToCR s n fuel pos) ∧
      Cli.skipToCR s n fuel pos ≤ n
  | 0, pos, hp, hf => by
    have heq : skipToCR s n 1 pos = pure (some pos) := if_neg (by omega)
    rw [heq]
    exact ⟨Scan.within_pure n _, rfl, hp⟩
  | fuel + 1, pos, hp, hf => by
    rw [Cli.skipToCR]
    by_cases hlt : (pos : ℤ) < n
    swap
    · have heq : skipToCR s n (fuel + 2) pos = pure (some pos) := if_neg hlt
      rw [heq, if_neg fun h => hlt h.1]
      exact ⟨Scan.within_pure n _, rfl, hp⟩
    by_cases hb : peek s pos = CR
    · have heq : skipToCR s n (fuel + 2) pos = read s pos >>= fun _ => pure (some pos) :=
        (if_pos hlt).trans (Scan.bind_congr (if_neg (not_not.mpr hb)))
      rw [heq, if_neg fun h => h.2 hb]
      exact ⟨(read_within hp).bind (Scan.within_pure n _), rfl, hp⟩
    · have hp1 : pos + 1 ≤ n := by omega
      obtain ⟨hw, hv, hle⟩ := skipToCR_spec fuel hp1 (by omega)
      have heq : skipToCR s n (fuel + 2) pos =
          read s pos >>= fun _ => skipToCR s n (fuel + 1) (pos + 1) :=
        (if_pos hlt).trans (Scan.bind_congr (if_pos hb))
      rw [heq, if_pos ⟨hlt, hb⟩]
      exact ⟨(read_within hp).bind hw, hv, hle⟩

theorem seekNewlineLoop_spec : ∀ (fuel : ℕ) {pos : ℕ}, pos ≤ n → n < pos + fuel →
    (seekNewlineLoop s n fuel pos).Within n ∧
      (seekNewlineLoop s n fuel pos).val = some (Cli.seekNewlineLoop s n fuel pos)
  | 0, pos, hp, hf => by omega
  | fuel + 1, pos, hp, hf => by
    rw [Cli.seekNewlineLoop]
    by_cases hlt : (pos : ℤ) < n
    swap
    · have heq : seekNewlineLoop s n (fuel + 1) pos = pure (some none) := if_neg hlt
      rw [heq, if_neg hlt]
      exact ⟨Scan.within_pure n _, rfl⟩
    obtain ⟨hws, hv, hr⟩ := skipToCR_spec (s := s) n hp (by omega)
    obtain ⟨hle, -, -⟩ := Recv.skipToCR_spec s n n pos (by omega)
    rw [if_pos hlt, Int.toNat_natCast]
    generalize Cli.skipToCR s n n pos = r at hv hr hle
    by_cases hstop : s.getD r 0 ≠ CR ∨ (r : ℤ) ≥ n
    · have heq : seekNewlineLoop s n (fuel + 1) pos = skipToCR s n (n + 1) pos >>= fun _ =>
          read s r >>= fun _ => pure (some none) :=
        (if_pos hlt).trans (Scan.bind_congr (by
          rw [Int.toNat_natCast, hv]
          exact Scan.bind_congr (if_pos hstop)))
      rw [heq, if_pos hstop]
      exact ⟨hws.bind ((read_within hr).bind (Scan.within_pure n _)), rfl⟩
    have hr1 : r + 1 ≤ n := by omega
    rw [if_neg hstop]
    by_cases hlf : s.getD (r + 1) 0 = LF
    · have heq : seekNewlineLoop s n (fuel + 1) pos = skipToCR s n (n + 1) pos >>= fun _ =>
          read s r >>= fun _ => read s (r + 1) >>= fun _ => pure (some (some r)) :=
        (if_pos hlt).trans (Scan.bind_congr (by
          rw [Int.toNat_natCast, hv]
          exact Scan.bind_congr ((if_neg hstop).trans (Scan.bind_congr (if_pos hlf)))))
      rw [heq, if_pos hlf]
      exact ⟨hws.bind ((read_within hr).bind ((read_within hr1).bind (Scan.within_pure n _))), rfl⟩
    · obtain ⟨hw, hval⟩ := seekNewlineLoop_spec fuel hr1 (by omega)
      have heq : seekNewlineLoop s n (fuel + 1) pos = skipToCR s n (n + 1) pos >>= fun _ =>
          read s r >>= fun _ => read s (r + 1) >>= fun _ => seekNewlineLoop s n fuel (r + 1) :=
        (if_pos hlt).trans (Scan.bind_congr (by
          rw [Int.toNat_natCast, hv]
          exact Scan.bind_congr ((if_neg hstop).trans (Scan.bind_congr (if_neg hlf)))))
      rw [heq, if_neg hlf]
      exact ⟨hws.bind ((read_within hr).bind ((read_within hr1).bind hw)), hval⟩

end Loops

/-! ### The search -/

section Search
variable {s : Bytes} {len : ℕ}

/-- `_len`: for an empty buffer the difference is the greatest `size_t`, and `-1` as an `int`. -/
theorem toInt32_subSize (h : len < 2 ^ 31) : toInt32 (subSize len 1) = (len : ℤ) - 1 := by
  rcases Nat.eq_zero_or_pos len with rfl | hpos
  · decide +kernel
  · rw [subSize_of_le hpos, toInt32_of_lt (by omega)]
    omega

theorem seekNewline_of_lt (h : len < 2 ^ 31) :
    seekNewline s len = seekNewlineLoop s (len - 1) (((len : ℤ) - 1).toNat + 1) 0 := by
  rw [seekNewline, toInt32_subSize h]

/-- **The search** reads only the bytes that it is given, ends, and is that of `Cli`. -/
theorem seekNewline_spec (h : len < 2 ^ 31) : (∀ i ∈ (seekNewline s len).reads, i < len) ∧
    (seekNewline s len).val = some (Cli.seekNewline s len) := by
  rw [seekNewline_of_lt h]
  rcases Nat.eq_zero_or_pos len with rfl | hpos
  · have heq : seekNewlineLoop s (((0 : ℕ) : ℤ) - 1) 1 0 = pure (some none) := if_neg (by omega)
    rw [show (((0 : ℕ) : ℤ) - 1).toNat + 1 = 1 from rfl, heq]
    exact ⟨fun i hi => absurd hi List.not_mem_nil, rfl⟩
  · obtain ⟨n, rfl⟩ : ∃ n, len = n + 1 := ⟨len - 1, by omega⟩
    have hn : ((n + 1 : ℕ) : ℤ) - 1 = n := by omega
    obtain ⟨hw, hv⟩ := seekNewlineLoop_spec (s := s) (n + 1) (Nat.zero_le n) (by omega)
    rw [Cli.seekNewline, Int.toNat_natCast, hn]
    exact ⟨fun i hi => Nat.lt_succ_of_le (hw i hi), hv⟩

/-- What the search of `Cli` returns is the first line end. -/
theorem eq_some_iff_isLeast {i : ℕ} :
    Cli.seekNewline s len = some i ↔ IsLeast {i | LineEnd s len i} i := by
  rw [Recv.seekNewline_eq_some_iff]
  constructor
  · rintro ⟨hi, hat, hfirst⟩
    refine ⟨⟨by omega, hat⟩, fun j hj => ?_⟩
    exact Nat.le_of_not_lt fun hlt => hfirst j hlt hj.2
  · rintro ⟨⟨hi, hat⟩, hfirst⟩
    refine ⟨by omega, hat, fun j hlt hends => ?_⟩
    have : i ≤ j := hfirst ⟨by omega, hends⟩
    omega

/-- **`seekNewline` finds the first line end.** It reads only the `len` bytes that it is given, ends,
and returns the position of the first line end among them, or `NULL` exactly if there is none. -/
theorem seekNewline_isLeast (s : Bytes) {len : ℕ} (h : len < 2 ^ 31) :
    (∀ i ∈ (seekNewline s len).reads, i < len) ∧
    ∃ r, (seekNewline s len).val = some r ∧
      (∀ i, r = some i ↔ IsLeast {i | LineEnd s len i} i) ∧
      (r = none ↔ ∀ i, ¬LineEnd s len i) := by
  obtain ⟨hreads, hval⟩ := seekNewline_spec (s := s) h
  refine ⟨hreads, _, hval, fun i => eq_some_iff_isLeast, ?_⟩
  rw [Option.eq_none_iff_forall_ne_some]
  constructor
  · intro hnone i hi
    exact hnone _ (eq_some_iff_isLeast.mpr (isLeast_csInf ⟨i, hi⟩))
  · intro hno i hi
    exact hno i (eq_some_iff_isLeast.mp hi).1

/-- Single carriage returns and line feeds, also at the end, are passed over. -/
theorem seekNewline_isLeast_lone :
    (seekNewline (bytes "\na\rb\r\r\nd\r") 9).val = some (some 5) ∧
    IsLeast {i | LineEnd (bytes "\na\rb\r\r\nd\r") 9 i} 5 := by
  have hval : (seekNewline (bytes "\na\rb\r\r\nd\r") 9).val = some (some 5) := by decide +kernel
  obtain ⟨-, r, hr, hleast, -⟩ :=
    seekNewline_isLeast (bytes "\na\rb\r\r\nd\r") (show 9 < 2 ^ 31 by omega)
  obtain rfl : r = some 5 := Option.some.inj (hr.symm.trans hval)
  exact ⟨hval, (hleast 5).mp rfl⟩

end Search

/-! ### The searches of the reader -/

section Reader
variable {c : RedisCli}

/-- The search of `ReadLine` and of `ProcessBulkItem`. -/
def search (c : RedisCli) : Scan (Option (Option ℕ)) :=
  seekNewline (c.rbuf.drop c.rbufPos.toNat) (sizeT c.rbufOffset)

/-- The reader behind the type byte of a reply. -/
def typed (c : RedisCli) : RedisCli :=
  { c with rbufPos := c.rbufPos + 1, rbufOffset := c.rbufOffset - 1 }

/-- The search stays in the window and in the buffer, and ends as in `Cli`. -/
structure Searches (c : RedisCli) : Prop where
  window : ∀ i ∈ (search c).reads, (i : ℤ) < c.rbufOffset
  rbuf : ∀ i ∈ (search c).reads, c.rbufPos + i < c.rbuf.length
  val : (search c).val =
    some (Cli.seekNewline (c.rbuf.drop c.rbufPos.toNat) c.rbufOffset)

theorem searches_of_inBounds (h : InBounds c) : Searches c := by
  obtain ⟨-, hsize, hpos, hoff, hle⟩ := h
  unfold REDIS_IOBUF_LEN at hsize
  have hlen : sizeT c.rbufOffset = c.rbufOffset.toNat := sizeT_of_nonneg hoff (by omega)
  have hcast : ((sizeT c.rbufOffset : ℕ) : ℤ) = c.rbufOffset := by omega
  have hlt : sizeT c.rbufOffset < 2 ^ 31 := by omega
  obtain ⟨hreads, hval⟩ := seekNewline_spec (s := c.rbuf.drop c.rbufPos.toNat) hlt
  rw [hcast] at hval
  refine ⟨fun i hi => ?_, fun i hi => ?_, hval⟩
  · have := hreads i hi
    omega
  · have := hreads i hi
    omega

/-- **While the window is inside the buffer, no search leaves the window**: in every state that calls
of `Recv` go through. -/
theorem recvs_searches (n : ℕ) (rbuf : Bytes) (hbuf : (rbuf.length : ℤ) = REDIS_IOBUF_LEN)
    (socket : List ReadResult)
    (hg : Guarded step Honest (connected rbuf socket) (recvsOps n (connected rbuf socket))) :
    Guarded step (fun c op => op = .getReplyFromReader → 0 < c.rbufOffset → Searches (typed c))
      (connected rbuf socket) (recvsOps n (connected rbuf socket)) := by
  have h := connected_inBounds socket hbuf
  refine guarded_of_inv InBounds (fun _ _ => step_inBounds) (fun c op hc _ _ hpos => ?_) h hg
  exact searches_of_inBounds (hc.typeByte hpos)

end Reader

end Pink.Redis.Newline
