import Pink.Lib.Runs
import Pink.Redis.Recv

/-! # The window of the reader

What `RedisCli` has received and not consumed is a window of `rbuf`. The steps that move it are
`BufferRead` and `GetReplyFromReader`; `recvsOps` is the sequence of them that a number of calls of
`Recv` makes. A step of the reader keeps the window inside the buffer, and takes its payload from
the window, exactly if what stands there is honest: a bulk string that the reader takes for complete
is complete, with its header, and the numbers are in range (`step_inside_iff`). The availability
check of `ProcessBulkItem` leaves the header out and knows no negative length but `-1`, so a server,
or a read that ends at the wrong place, can move the window out of the buffer. -/

namespace Pink.Redis.Window

open Pink.Redis.Wire Pink.Redis.Cli Pink.Redis.Cli.RedisCli Pink.Redis.Recv Pink.Lib.Runs

/-! ### The steps of `Recv` -/

inductive Op
  /-- `argv_.clear()` of `Recv` and `elements_ = 1` of `GetReply`. -/
  | clear
  | bufferRead
  | getReplyFromReader
  deriving DecidableEq, Repr

/-- After a fault nothing happens. -/
def step (c : RedisCli) (op : Op) : RedisCli :=
  if c.fault ≠ none then c
  else
    match op with
    | .clear => { c with argv := [], elements := 1 }
    | .bufferRead => c.bufferRead.1
    | .getReplyFromReader => c.getReplyFromReader.1

/-- The steps of the loop of `GetReply`. -/
def getReplyOps : ℕ → RedisCli → Code → List Op
  | 0, _, _ => []
  | n + 1, c, result =>
    if c.elements > 0 then
      (if c.rbufOffset = 0 ∨ result = .half then [.bufferRead] else []) ++
        match c.refill result with
        | (_, some _) => []
        | (c, none) =>
          if c.fault ≠ none then []
          else
            .getReplyFromReader ::
              match c.getReplyFromReader with
              | (_, .eparseType) => []
              | (c, result) => if c.fault ≠ none then [] else getReplyOps n c result
    else []

def recvOps (c : RedisCli) : List Op :=
  .clear :: getReplyOps (c.rbufOffset.toNat + c.pending + c.rbuf.length + 2)
    { c with argv := [], elements := 1 } .ok

/-- The steps of `n` calls of `Recv`. -/
def recvsOps : ℕ → RedisCli → List Op
  | 0, _ => []
  | n + 1, c => recvOps c ++ if c.recv.1.fault ≠ none then [] else recvsOps n c.recv.1

/-! ### What is inside -/

/-- The bytes received and not yet consumed. -/
def window (c : RedisCli) : Bytes := (c.rbuf.drop c.rbufPos.toNat).take c.rbufOffset.toNat

/-- **The window is inside the buffer**, and nothing has gone wrong. -/
structure InBounds (c : RedisCli) : Prop where
  fault : c.fault = none
  size : (c.rbuf.length : ℤ) = REDIS_IOBUF_LEN
  pos : 0 ≤ c.rbufPos
  offset : 0 ≤ c.rbufOffset
  le : c.rbufPos + c.rbufOffset ≤ c.rbuf.length

/-- The window of `c` is inside the buffer, and what `c` has appended to `argv` is part of `w`. -/
structure Moved (argv : Argv) (w : Bytes) (c : RedisCli) : Prop where
  inBounds : InBounds c
  payloads : ∃ new, c.argv = argv ++ new ∧ ∀ x ∈ new, x <:+: w

/-- **The step stays inside.** -/
def Inside (c : RedisCli) : Op → Prop
  | .clear => InBounds (step c .clear)
  | op => Moved c.argv (window c) (step c op)

/-! ### What is honest -/

/-- What `seekNewline` and `readLongLong` find behind the `$` of a bulk string: the string is nil,
or the reader sees that it is not complete, or it is complete. -/
def BulkFits (w : Bytes) : Prop :=
  ∀ s ∈ seekNewline w w.length, ∃ v ∈ (readLongLong w).toOption,
    toInt v = -1 ∨
    ((w.length : ℤ) < toInt v + 2 ∧ toInt v + 2 ≤ INT_MAX) ∨
    (0 ≤ toInt v ∧ (s : ℤ) + 2 + (toInt v + 2) ≤ w.length)

/-- The number behind the `*` of an array is in range. -/
def CountFits (w : Bytes) : Prop :=
  ∀ _s ∈ seekNewline w w.length, (readLongLong w).toOption ≠ none

def HonestBytes : Bytes → Prop
  | [] => True
  | t :: w => (t = ch '$' → BulkFits w) ∧ (t = ch '*' → CountFits w)

/-- **What the reader is about to read is honest.** -/
def Honest (c : RedisCli) (op : Op) : Prop := op = .getReplyFromReader → HonestBytes (window c)

instance (w : Bytes) : Decidable (BulkFits w) :=
  inferInstanceAs (Decidable (∀ s ∈ seekNewline w w.length, _))

instance (w : Bytes) : Decidable (CountFits w) :=
  inferInstanceAs (Decidable (∀ _s ∈ seekNewline w w.length, _))

instance : (w : Bytes) → Decidable (HonestBytes w)
  | [] => .isTrue trivial
  | _ :: _ => inferInstanceAs (Decidable (_ ∧ _))

instance (c : RedisCli) (op : Op) : Decidable (Honest c op) :=
  inferInstanceAs (Decidable (_ → _))

/-! ### What the reader sees of the buffer -/

/-- `seekNewline` looks only at the bytes that it is given. -/
theorem seekNewline_append (w t : Bytes) :
    seekNewline (w ++ t) w.length = seekNewline w w.length := by
  have hends : ∀ {j : ℕ}, (j : ℤ) + 1 < w.length → (EndsAt (w ++ t) j ↔ EndsAt w j) := by
    intro j hj
    have h0 : j < w.length := by omega
    have h1 : j + 1 < w.length := by omega
    simp only [EndsAt, List.getD_eq_getElem?_getD, List.getElem?_append_left h0,
      List.getElem?_append_left h1]
  have hiff : ∀ i, seekNewline (w ++ t) w.length = some i ↔ seekNewline w w.length = some i := by
    intro i
    rw [seekNewline_eq_some_iff, seekNewline_eq_some_iff]
    refine and_congr_right fun hi => and_congr (hends hi) ?_
    exact forall_congr' fun j => imp_congr_right fun hj => not_congr (hends (by omega))
  exact Option.ext hiff

theorem readDigits_append (mult : ℤ) (t : Bytes) : ∀ (w : Bytes) (v : ℤ), CR ∈ w →
    readDigits mult (w ++ t) v = readDigits mult w v := by
  intro w
  induction w with
  | nil => intro v h; simp at h
  | cons b w ih =>
    intro v h
    rw [List.cons_append, readDigits, readDigits]
    by_cases hb : b = CR
    · rw [if_pos hb, if_pos hb]
    · have hw : CR ∈ w := (List.mem_cons.mp h).resolve_left fun h => hb h.symm
      rw [if_neg hb, if_neg hb]
      simp only [ih _ hw]

/-- `readLongLong` stops at the carriage return. -/
theorem readLongLong_append {w : Bytes} (t : Bytes) (h : CR ∈ w) :
    readLongLong (w ++ t) = readLongLong w := by
  cases w with
  | nil => simp at h
  | cons b w =>
    rw [List.cons_append, readLongLong, readLongLong, ← List.cons_append,
      readDigits_append 1 t (b :: w) 0 h]
    by_cases hm : b = ch '-'
    · have hw : CR ∈ w := (List.mem_cons.mp h).resolve_left fun h => by
        rw [← h] at hm; exact absurd hm (by decide)
      rw [if_pos hm, if_pos hm, readDigits_append _ t w 0 hw]
    rw [if_neg hm, if_neg hm]
    by_cases hp : b = ch '+'
    · have hw : CR ∈ w := (List.mem_cons.mp h).resolve_left fun h => by
        rw [← h] at hp; exact absurd hp (by decide)
      rw [if_pos hp, if_pos hp, readDigits_append _ t w 0 hw]
    · rw [if_neg hp, if_neg hp]

section Reader
variable {c c' : RedisCli} {w : Bytes}

theorem InBounds.length_window (h : InBounds c) : ((window c).length : ℤ) = c.rbufOffset := by
  obtain ⟨-, -, h1, h2, h3⟩ := h
  rw [window, List.length_take, List.length_drop]
  omega

theorem InBounds.holds (h : InBounds c) : Holds c (window c) :=
  ⟨h.fault, h.pos, h.size, h.length_window.symm, List.take_prefix _ _⟩

theorem window_of_holds (h : Holds c w) : window c = w := by
  rw [window, h.offset, Int.toNat_natCast]
  exact (List.prefix_iff_eq_take.mp h.bytes).symm

theorem InBounds.seekNewline_eq (h : InBounds c) :
    seekNewline (c.rbuf.drop c.rbufPos.toNat) c.rbufOffset =
      seekNewline (window c) (window c).length := by
  obtain ⟨t, ht⟩ := h.holds.bytes
  rw [← h.length_window, ← ht, seekNewline_append]

/-- The line that `seekNewline` finds ends in the window, and a number before its end is read from
the window. -/
theorem InBounds.line (h : InBounds c) {i : ℕ}
    (hi : seekNewline (window c) (window c).length = some i) :
    (i : ℤ) + 2 ≤ c.rbufOffset ∧
      readLongLong (c.rbuf.drop c.rbufPos.toNat) = readLongLong (window c) := by
  obtain ⟨h1, ⟨h2, -⟩, -⟩ := seekNewline_eq_some_iff.mp hi
  obtain ⟨t, ht⟩ := h.holds.bytes
  have hlen : i < (window c).length := by omega
  have hmem : CR ∈ window c := by
    rw [List.getD_eq_getElem?_getD, List.getElem?_eq_getElem hlen, Option.getD_some] at h2
    rw [← h2]; exact List.getElem_mem hlen
  refine ⟨by rw [← h.length_window]; omega, ?_⟩
  rw [← ht, readLongLong_append t hmem]

/-- What is copied out of the window is a part of it. -/
theorem part_window {a b : ℕ} (h : (a : ℤ) + b ≤ c.rbufOffset) :
    ((c.rbuf.drop c.rbufPos.toNat).drop a).take b <:+: window c := by
  have heq : ((c.rbuf.drop c.rbufPos.toNat).drop a).take b = ((window c).drop a).take b := by
    rw [window, List.drop_take, List.take_take, Nat.min_eq_left (by omega)]
  rw [heq]
  exact (List.take_prefix _ _).isInfix.trans (List.drop_suffix _ _).isInfix

/-- To consume what is in the window keeps it inside. -/
theorem InBounds.consume (h : InBounds c) {n : ℤ} (h0 : 0 ≤ n) (hn : n ≤ c.rbufOffset)
    (hf : c'.fault = none) (hr : c'.rbuf = c.rbuf) (hp : c'.rbufPos = c.rbufPos + n)
    (ho : c'.rbufOffset = c.rbufOffset - n) : InBounds c' := by
  obtain ⟨-, h1, h2, h3, h4⟩ := h
  exact ⟨hf, by rw [hr, h1], by omega, by omega, by rw [hr]; omega⟩

/-- The window behind the type byte. -/
theorem InBounds.typeByte (h : InBounds c) (hpos : 0 < c.rbufOffset) :
    InBounds { c with rbufPos := c.rbufPos + 1, rbufOffset := c.rbufOffset - 1 } :=
  h.consume (n := 1) (by omega) (by omega) h.fault rfl rfl rfl

theorem Moved.of_argv {argv : Argv} (h : InBounds c) (ha : c.argv = argv) : Moved argv w c :=
  ⟨h, [], by simp [ha], by simp⟩

theorem not_moved_raise {argv : Argv} (f : Fault) : ¬Moved argv w (c.raise f) := fun h => by
  have := h.inBounds.fault
  simp [raise] at this

/-! ### Items -/

theorem processLineItem_moved (h : InBounds c) (hw : window c <:+: w) :
    Moved c.argv w c.processLineItem.1 := by
  unfold processLineItem readLine
  dsimp only
  rw [h.seekNewline_eq]
  cases hs : seekNewline (window c) (window c).length with
  | none => exact .of_argv h rfl
  | some i =>
    obtain ⟨hle, -⟩ := h.line hs
    refine ⟨h.consume (n := i + 2) (by omega) hle h.fault rfl rfl rfl, [_], rfl, ?_⟩
    intro x hx
    rw [List.mem_singleton.mp hx]
    exact (part_window (a := 0) (by push_cast; omega)).trans hw

theorem processMultiBulkItem_moved_iff (h : InBounds c) :
    Moved c.argv w c.processMultiBulkItem.1 ↔ CountFits (window c) := by
  unfold processMultiBulkItem readLine CountFits
  dsimp only
  rw [h.seekNewline_eq]
  cases hs : seekNewline (window c) (window c).length with
  | none => simpa using Moved.of_argv h rfl
  | some i =>
    obtain ⟨hle, hnum⟩ := h.line hs
    simp only [hnum]
    cases hv : readLongLong (window c) with
    | error f => simpa [Except.toOption] using not_moved_raise f
    | ok v =>
      have hin : Moved c.argv w { c with
          rbufPos := c.rbufPos + (i + 2)
          rbufOffset := c.rbufOffset - (i + 2)
          elements := toInt v } :=
        .of_argv (h.consume (n := i + 2) (by omega) hle h.fault rfl rfl rfl) rfl
      simpa [Except.toOption] using hin

/-- **A bulk string is taken from the window exactly if it fits.** If the header, the payload and
the line end behind it are not all in the window, then `rbufOffset` becomes negative. -/
theorem processBulkItem_moved_iff (h : InBounds c) (hw : window c <:+: w) :
    Moved c.argv w c.processBulkItem.1 ↔ BulkFits (window c) := by
  unfold processBulkItem BulkFits
  dsimp only
  rw [h.seekNewline_eq]
  cases hs : seekNewline (window c) (window c).length with
  | none => simpa using Moved.of_argv h rfl
  | some i =>
    obtain ⟨hle, hnum⟩ := h.line hs
    simp only [hnum]
    cases hv : readLongLong (window c) with
    | error f => simpa [Except.toOption] using not_moved_raise f
    | ok v =>
      have hlen := h.length_window
      have hsize := h.size
      have hpos := h.pos
      have hin := h.le
      simp only [Option.mem_def, Option.some.injEq, forall_eq', Except.toOption, exists_eq_left']
      unfold REDIS_IOBUF_LEN at hsize
      unfold INT_MAX
      generalize toInt v = len
      by_cases h1 : len = -1
      · rw [if_pos h1]
        exact iff_of_true
          (.of_argv (h.consume (n := i + 2) (by omega) hle h.fault rfl rfl rfl) rfl) (.inl h1)
      rw [if_neg h1]
      by_cases h2 : len + 2 > 2 ^ 31 - 1
      · rw [if_pos h2]
        exact iff_of_false (not_moved_raise _) (by omega)
      rw [if_neg h2]
      by_cases h3 : len + 2 ≤ c.rbufOffset
      swap
      · rw [if_neg h3]
        exact iff_of_true (.of_argv h rfl) (by omega)
      rw [if_pos h3]
      by_cases h4 : len < 0
      · rw [if_pos h4]
        exact iff_of_false (not_moved_raise _) (by omega)
      rw [if_neg h4]
      by_cases h5 : c.rbufPos + ((i : ℤ) + 2) + len > c.rbuf.length
      · rw [if_pos h5]
        exact iff_of_false (not_moved_raise _) (by omega)
      rw [if_neg h5]
      constructor
      · intro hm
        have := hm.inBounds.offset
        dsimp only at this
        omega
      · intro hfit
        have hall : (i : ℤ) + 2 + (len + 2) ≤ c.rbufOffset := by omega
        refine ⟨h.consume (n := i + 2 + (len + 2)) (by omega) hall h.fault rfl rfl rfl, [_], rfl, ?_⟩
        intro x hx
        rw [List.mem_singleton.mp hx]
        exact (part_window (by omega)).trans hw

/-! ### Steps -/

theorem dispatch_moved_iff (t : UInt8) (h : InBounds c) :
    Moved c.argv (t :: window c) (dispatch t c).1 ↔ HonestBytes (t :: window c) := by
  have hinf : window c <:+: t :: window c := (List.suffix_cons t _).isInfix
  unfold dispatch HonestBytes
  by_cases hline : t = ch '-' ∨ t = ch '+' ∨ t = ch ':'
  · have hne : t ≠ ch '$' ∧ t ≠ ch '*' := by rcases hline with rfl | rfl | rfl <;> decide
    rw [if_pos hline]
    exact iff_of_true (processLineItem_moved h hinf)
      ⟨fun he => absurd he hne.1, fun he => absurd he hne.2⟩
  rw [if_neg hline]
  by_cases hbulk : t = ch '$'
  · have hne : t ≠ ch '*' := by rw [hbulk]; decide
    rw [if_pos hbulk, processBulkItem_moved_iff h hinf]
    exact ⟨fun hf => ⟨fun _ => hf, fun he => absurd he hne⟩, fun hf => hf.1 hbulk⟩
  rw [if_neg hbulk]
  by_cases harray : t = ch '*'
  · rw [if_pos harray, processMultiBulkItem_moved_iff h]
    exact ⟨fun hf => ⟨fun he => absurd he hbulk, fun _ => hf⟩, fun hf => hf.2 harray⟩
  · rw [if_neg harray]
    exact iff_of_true (.of_argv h rfl) ⟨fun he => absurd he hbulk, fun he => absurd he harray⟩

/-- **A step of the reader stays inside exactly if what it reads is honest.** -/
theorem getReplyFromReader_moved_iff (h : InBounds c) :
    Moved c.argv (window c) c.getReplyFromReader.1 ↔ HonestBytes (window c) := by
  have hlen := h.length_window
  have hholds := h.holds
  cases hwin : window c with
  | nil =>
    rw [hwin, List.length_nil, Nat.cast_zero] at hlen
    rw [RedisCli.getReplyFromReader, if_pos hlen.symm]
    exact iff_of_true (.of_argv h rfl) trivial
  | cons t w =>
    rw [hwin] at hholds hlen
    rw [List.length_cons] at hlen
    have h1 := h.typeByte (by omega)
    have hw : Holds { c with rbufPos := c.rbufPos + 1, rbufOffset := c.rbufOffset - 1 } w := by
      simpa using Holds.drop (u := [t]) hholds
    rw [hholds.getReplyFromReader_eq]
    have := dispatch_moved_iff t h1
    rwa [window_of_holds hw] at this

/-- What `BufferRead` does to a reader that is in bounds: bytes come from the socket into the
window, at least one if the call succeeds. -/
structure Refilled (c c' : RedisCli) (r : Option Code) : Prop where
  inBounds : InBounds c'
  argv : c'.argv = c.argv
  elements : c'.elements = c.elements
  measure : c'.rbufOffset + c'.pending ≤ c.rbufOffset + c.pending
  some : r = none → 0 < c'.rbufOffset

/-- The bytes that a list of results of `read` holds. -/
def arriving (rs : List ReadResult) : ℕ :=
  (rs.map fun r => match r with | .data b => b.length | _ => 0).sum

theorem arriving_rest (rest : Bytes) (rs : List ReadResult) :
    arriving (if rest = [] then rs else .data rest :: rs) = rest.length + arriving rs := by
  split_ifs with h
  · rw [h, List.length_nil, Nat.zero_add]
  · simp [arriving]

/-- Without new bytes. -/
theorem InBounds.refilled (h : InBounds c) {rs : List ReadResult} (hrs : arriving rs ≤ c.pending)
    (e : String) (code : Code) :
    Refilled c { c with socket := rs, strerror := e } (some code) :=
  ⟨⟨h.fault, h.size, h.pos, h.offset, h.le⟩, rfl, rfl,
    by show c.rbufOffset + (arriving rs : ℤ) ≤ _; omega, nofun⟩

theorem readLoop_refilled (h : InBounds c) (h0 : c.rbufPos = 0) : ∀ rs : List ReadResult,
    arriving rs ≤ c.pending → Refilled c (readLoop c rs).1 (readLoop c rs).2 := by
  intro rs
  induction rs with
  | nil =>
    intro h0
    exact h.refilled h0 c.strerror .etimeout
  | cons r rs ih =>
    intro hp
    have hle : arriving rs ≤ c.pending := by
      refine le_trans ?_ hp
      simp [arriving]
    cases r with
    | eintr => exact ih hle
    | eagain => exact h.refilled hle c.strerror .etimeout
    | error e => exact h.refilled hle e .eread
    | data b =>
      have hoff := h.offset
      have hsize := h.le
      have harr : arriving (.data b :: rs) = b.length + arriving rs := by simp [arriving]
      rw [readLoop, if_neg (by omega)]
      dsimp only
      generalize hroom : ((c.rbuf.length : ℤ) - c.rbufOffset).toNat = room
      have hrest := arriving_rest (b.drop room) rs
      have hlen : b.length = (b.take room).length + (b.drop room).length := by
        rw [← List.length_append, List.take_append_drop]
      by_cases hgot : b.take room = []
      · rw [if_pos hgot]
        exact h.refilled (by omega) c.strerror .ereadNull
      rw [if_neg hgot]
      have hpos := List.length_pos_iff.mpr hgot
      have hgle : (b.take room).length ≤ room := List.length_take_le _ _
      have hrb : (c.rbuf.take c.rbufOffset.toNat ++ b.take room ++
          c.rbuf.drop (c.rbufOffset.toNat + (b.take room).length)).length = c.rbuf.length := by
        rw [List.length_append, List.length_append, List.length_take, List.length_drop]
        omega
      refine ⟨⟨h.fault, by dsimp only; rw [hrb, h.size], h.pos, by dsimp only; omega, ?_⟩,
        rfl, rfl, ?_, fun _ => by dsimp only; omega⟩
      · dsimp only
        rw [hrb]; omega
      · show c.rbufOffset + ((b.take room).length : ℤ) +
          (arriving (if b.drop room = [] then rs else .data (b.drop room) :: rs) : ℤ) ≤ _
        omega

theorem bufferRead_refilled (h : InBounds c) : Refilled c c.bufferRead.1 c.bufferRead.2 := by
  have hpos := h.pos
  have hoff := h.offset
  have hle := h.le
  unfold bufferRead
  by_cases hp : c.rbufPos > 0
  swap
  · rw [if_neg hp]
    exact readLoop_refilled h (by omega) c.socket le_rfl
  rw [if_pos hp]
  by_cases ho : c.rbufOffset > 0
  · rw [if_pos ho]
    dsimp only
    have hk : ((c.rbuf.drop c.rbufPos.toNat).take c.rbufOffset.toNat).length =
        c.rbufOffset.toNat := by
      rw [List.length_take, List.length_drop]; omega
    generalize (c.rbuf.drop c.rbufPos.toNat).take c.rbufOffset.toNat = kept at *
    have hlen : (kept ++ c.rbuf.drop kept.length).length = c.rbuf.length := by
      rw [List.length_append, List.length_drop]; omega
    have h1 : InBounds { c with rbuf := kept ++ c.rbuf.drop kept.length, rbufPos := 0 } :=
      ⟨h.fault, by dsimp only; rw [hlen, h.size], le_rfl, hoff, by dsimp only; rw [hlen]; omega⟩
    have hr := readLoop_refilled h1 rfl c.socket le_rfl
    exact ⟨hr.inBounds, hr.argv, hr.elements, hr.measure, hr.some⟩
  · rw [if_neg ho]
    have h1 : InBounds { c with rbufPos := 0 } :=
      ⟨h.fault, h.size, le_rfl, hoff, by dsimp only; omega⟩
    have hr := readLoop_refilled h1 rfl c.socket le_rfl
    exact ⟨hr.inBounds, hr.argv, hr.elements, hr.measure, hr.some⟩

theorem step_of_inBounds (h : InBounds c) (op : Op) : step c op =
    match op with
    | .clear => { c with argv := [], elements := 1 }
    | .bufferRead => c.bufferRead.1
    | .getReplyFromReader => c.getReplyFromReader.1 := by
  simp only [step, h.fault, ne_eq, not_true_eq_false, if_false]

/-- **A step stays inside exactly if what the reader reads is honest.** -/
theorem step_inside_iff (h : InBounds c) (op : Op) : Inside c op ↔ Honest c op := by
  cases op with
  | clear =>
    refine iff_of_true ?_ nofun
    rw [Inside, step_of_inBounds h]
    exact ⟨h.fault, h.size, h.pos, h.offset, h.le⟩
  | bufferRead =>
    refine iff_of_true ?_ nofun
    have hr := bufferRead_refilled h
    rw [Inside, step_of_inBounds h]
    · exact .of_argv hr.inBounds hr.argv
    · nofun
  | getReplyFromReader =>
    rw [Inside, step_of_inBounds h]
    · exact (getReplyFromReader_moved_iff h).trans ⟨fun hb _ => hb, fun hb => hb rfl⟩
    · nofun

theorem step_inBounds {op : Op} (h : InBounds c) (hh : Honest c op) : InBounds (step c op) := by
  have hin := (step_inside_iff h op).mpr hh
  cases op with
  | clear => exact hin
  | bufferRead => exact hin.inBounds
  | getReplyFromReader => exact hin.inBounds

/-! ### Calls of `Recv` -/

/-- The items take from the window, and leave the socket alone. -/
theorem dispatch_le (t : UInt8) (c : RedisCli) :
    (dispatch t c).1.rbufOffset ≤ c.rbufOffset ∧ (dispatch t c).1.socket = c.socket := by
  unfold dispatch
  split_ifs
  · unfold processLineItem readLine
    dsimp only
    cases seekNewline (c.rbuf.drop c.rbufPos.toNat) c.rbufOffset with
    | none => exact ⟨le_rfl, rfl⟩
    | some i => exact ⟨by dsimp only; omega, rfl⟩
  · unfold processBulkItem
    dsimp only
    cases seekNewline (c.rbuf.drop c.rbufPos.toNat) c.rbufOffset with
    | none => exact ⟨le_rfl, rfl⟩
    | some i =>
      cases readLongLong (c.rbuf.drop c.rbufPos.toNat) with
      | error f => exact ⟨le_rfl, rfl⟩
      | ok v =>
        dsimp only
        split_ifs <;> exact ⟨by dsimp only [raise]; omega, rfl⟩
  · unfold processMultiBulkItem readLine
    dsimp only
    cases seekNewline (c.rbuf.drop c.rbufPos.toNat) c.rbufOffset with
    | none => exact ⟨le_rfl, rfl⟩
    | some i =>
      cases readLongLong (c.rbuf.drop c.rbufPos.toNat) with
      | error f => exact ⟨by dsimp only [raise]; omega, rfl⟩
      | ok v => exact ⟨by dsimp only; omega, rfl⟩
  · exact ⟨le_rfl, rfl⟩

/-- The reader takes a byte. -/
theorem getReplyFromReader_lt (h : InBounds c) (hpos : 0 < c.rbufOffset) :
    c.getReplyFromReader.1.rbufOffset < c.rbufOffset ∧
      c.getReplyFromReader.1.socket = c.socket := by
  have hlen := h.length_window
  have hholds := h.holds
  cases hwin : window c with
  | nil => rw [hwin, List.length_nil] at hlen; omega
  | cons t w =>
    rw [hwin] at hholds
    rw [hholds.getReplyFromReader_eq]
    obtain ⟨h1, h2⟩ := dispatch_le t
      { c with rbufPos := c.rbufPos + 1, rbufOffset := c.rbufOffset - 1 }
    exact ⟨by dsimp only at h1; omega, h2⟩

theorem refill_run (h : InBounds c) (result : Code) :
    run step c (if c.rbufOffset = 0 ∨ result = .half then [.bufferRead] else []) =
      (c.refill result).1 ∧ Refilled c (c.refill result).1 (c.refill result).2 := by
  have hoff := h.offset
  unfold refill
  by_cases hr : c.rbufOffset = 0 ∨ result = .half
  · rw [if_pos hr, if_pos hr]
    exact ⟨step_of_inBounds h .bufferRead, bufferRead_refilled h⟩
  · rw [if_neg hr, if_neg hr]
    exact ⟨rfl, h, rfl, rfl, le_rfl, fun _ => by push Not at hr; dsimp only; omega⟩

/-- **`getReplyOps` is what the loop of `GetReply` does**, and its fuel is enough. -/
theorem getReplyLoop_run : ∀ (n : ℕ) {c : RedisCli} {result : Code}, InBounds c →
    c.rbufOffset + c.pending < n → Guarded step Honest c (getReplyOps n c result) →
    (getReplyLoop n c result).1 = run step c (getReplyOps n c result) := by
  intro n
  induction n with
  | zero =>
    intro c result h hn _
    have := h.offset
    omega
  | succ n ih =>
    intro c result h hn hg
    rw [getReplyOps] at hg ⊢
    rw [getReplyLoop]
    by_cases hel : c.elements > 0
    swap
    · rw [if_neg hel, if_neg hel]; rfl
    rw [if_pos hel, guarded_append] at hg
    rw [if_pos hel, if_pos hel, run_append]
    obtain ⟨hrun, hrefill⟩ := refill_run h result
    rw [hrun] at hg ⊢
    obtain ⟨-, hg⟩ := hg
    rcases hc1 : c.refill result with ⟨c1, r⟩
    rw [hc1] at hrefill hg
    cases r with
    | some e => rfl
    | none =>
      have h1 : InBounds c1 := hrefill.inBounds
      have hm : c1.rbufOffset + c1.pending ≤ c.rbufOffset + c.pending := hrefill.measure
      obtain ⟨hlt, hsock⟩ := getReplyFromReader_lt h1 (hrefill.some rfl)
      simp only [h1.fault, ne_eq, not_true_eq_false, if_false] at hg ⊢
      obtain ⟨hhon, hg⟩ := hg
      have h2 := step_inBounds h1 hhon
      simp only [run, List.foldl_cons]
      rw [step_of_inBounds h1] at hg h2 ⊢
      dsimp only at hg h2 ⊢
      rcases hc2 : c1.getReplyFromReader with ⟨c2, code⟩
      rw [hc2] at hg h2 hlt hsock
      dsimp only at hg h2 hlt hsock
      have hmeasure : c2.rbufOffset + c2.pending < n := by
        have hp : c2.pending = c1.pending := by rw [pending, hsock, pending]
        omega
      cases code with
      | eparseType => rfl
      | _ =>
        simp only [h2.fault, not_true_eq_false, if_false] at hg ⊢
        exact ih h2 hmeasure hg

theorem recv_run (h : InBounds c) (hg : Guarded step Honest c (recvOps c)) :
    c.recv.1 = run step c (recvOps c) := by
  have hoff := h.offset
  have h1 : InBounds { c with argv := [], elements := 1 } :=
    ⟨h.fault, h.size, h.pos, h.offset, h.le⟩
  have hrecv : c.recv.1 = (getReply { c with argv := [] }).1 := by
    unfold recv
    rcases getReply { c with argv := [] } with ⟨c', code⟩
    cases code <;> rfl
  rw [recvOps] at hg ⊢
  simp only [run, List.foldl_cons]
  obtain ⟨-, hg⟩ := hg
  rw [step_of_inBounds h] at hg ⊢
  rw [hrecv, getReply]
  refine getReplyLoop_run _ h1 ?_ hg
  show c.rbufOffset + (c.pending : ℤ) <
    ((c.rbufOffset.toNat + c.pending + c.rbuf.length + 2 : ℕ) : ℤ)
  omega

theorem recvs_run : ∀ (n : ℕ) {c : RedisCli}, InBounds c →
    Guarded step Honest c (recvsOps n c) →
    (fun c => c.recv.1)^[n] c = run step c (recvsOps n c) := by
  intro n
  induction n with
  | zero => exact fun _ _ => rfl
  | succ n ih =>
    intro c h hg
    rw [recvsOps, guarded_append] at hg
    rw [recvsOps, run_append, Function.iterate_succ_apply]
    obtain ⟨hg, hg'⟩ := hg
    have h1 := run_inv InBounds (fun _ _ => step_inBounds) h hg
    rw [← recv_run h hg] at h1 hg' ⊢
    simp only [h1.fault, ne_eq, not_true_eq_false, if_false] at hg' ⊢
    exact ih h1 hg'

end Reader

/-! ### Every stream -/

/-- A reader that has received nothing: whatever is in its buffer, whatever `read` returns. -/
def connected (rbuf : Bytes) (socket : List ReadResult) : RedisCli := { rbuf, socket }

theorem connected_inBounds {rbuf : Bytes} (socket : List ReadResult)
    (hbuf : (rbuf.length : ℤ) = REDIS_IOBUF_LEN) : InBounds (connected rbuf socket) :=
  ⟨rfl, hbuf, le_rfl, le_rfl, by simp [connected]⟩

/-- **The window stays inside the buffer, and every payload comes from the window, in every state
that calls of `Recv` go through, exactly if all that the reader reads is honest.** -/
theorem recvs_inside_iff (n : ℕ) (rbuf : Bytes) (hbuf : (rbuf.length : ℤ) = REDIS_IOBUF_LEN)
    (socket : List ReadResult) :
    (Guarded step Inside (connected rbuf socket) (recvsOps n (connected rbuf socket)) ↔
      Guarded step Honest (connected rbuf socket) (recvsOps n (connected rbuf socket))) ∧
    (Guarded step Honest (connected rbuf socket) (recvsOps n (connected rbuf socket)) →
      run step (connected rbuf socket) (recvsOps n (connected rbuf socket)) =
        (fun c => c.recv.1)^[n] (connected rbuf socket)) := by
  have h := connected_inBounds socket hbuf
  refine ⟨guarded_iff_of_inv InBounds (fun _ _ => step_inBounds) ?_ h, fun hg => ?_⟩
  · exact fun c op hc => step_inside_iff hc op
  · exact (recvs_run n h hg).symm

theorem recvs_inside_iff_bulk :
    Guarded step Inside (connected zeros [.data (bytes "$2\r\nab\r\n:7\r\n")])
      (recvsOps 3 (connected zeros [.data (bytes "$2\r\nab\r\n:7\r\n")])) := by
  refine (recvs_inside_iff 3 zeros length_zeros _).1.mpr ?_
  decide +kernel

/-- A read that ends before the last byte of the payload: the reader takes the string for complete,
and `rbufOffset` becomes negative. -/
theorem not_recvs_inside :
    [bytes "$5\r\nabcd", bytes "e\r\n"].flatten = (Item.bulk (bytes "abcde")).encode ∧
    ¬Guarded step Inside
      (connected zeros [.data (bytes "$5\r\nabcd"), .data (bytes "e\r\n")])
      (recvsOps 1 (connected zeros [.data (bytes "$5\r\nabcd"), .data (bytes "e\r\n")])) := by
  refine ⟨by decide +kernel, fun h => ?_⟩
  have hops : recvsOps 1 (connected zeros [.data (bytes "$5\r\nabcd"), .data (bytes "e\r\n")]) =
      [.clear, .bufferRead, .getReplyFromReader] := by decide +kernel
  rw [hops] at h
  obtain ⟨-, -, h, -⟩ := h
  exact absurd h.inBounds.offset (by decide +kernel)

end Pink.Redis.Window
