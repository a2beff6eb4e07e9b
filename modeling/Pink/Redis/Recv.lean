import Pink.Redis.Cli

/-! # Receiving replies

The reader on a stream of well-formed replies. It consumes the type byte of an item before it knows
whether the item is complete, and it does not count the header of a bulk string when it looks
whether the string is complete; so an item that is cut by the end of a read is lost. If every read
ends where an item ends, then every `Recv` returns one reply (`recvs_aligned`). -/

namespace Pink.Redis.Recv

open Pink.Redis.Wire Pink.Redis.Cli Pink.Redis.Cli.RedisCli

/-! ### Replies -/

/-- The replies that are one line. -/
inductive LineType
  | status | error | integer
  deriving DecidableEq, Repr

def LineType.byte : LineType → UInt8
  | .status => ch '+'
  | .error => ch '-'
  | .integer => ch ':'

inductive Item
  | line (t : LineType) (text : Bytes)
  | bulk (payload : Bytes)
  | nil
  deriving DecidableEq, Repr

inductive Reply
  | item (i : Item)
  | array (items : List Item)
  deriving DecidableEq, Repr

def Item.encode : Item → Bytes
  | .line t text => t.byte :: (text ++ [CR, LF])
  | .bulk payload => ch '$' :: (decimalNat payload.length ++ [CR, LF] ++ payload ++ [CR, LF])
  | .nil => ch '$' :: (decimal (-1) ++ [CR, LF])

/-- What an item adds to the result. -/
def Item.payloads : Item → Argv
  | .line _ text => [text]
  | .bulk payload => [payload]
  | .nil => []

def arrayHeader (n : ℕ) : Bytes := ch '*' :: (decimalNat n ++ [CR, LF])

/-- The pieces of a reply: the header of an array is a piece of its own. -/
def Reply.pieces : Reply → List Bytes
  | .item i => [i.encode]
  | .array items => arrayHeader items.length :: items.map Item.encode

def Reply.encode (r : Reply) : Bytes := r.pieces.flatten

def Reply.payloads : Reply → Argv
  | .item i => i.payloads
  | .array items => items.flatMap Item.payloads

/-- The text of a line holds no line end, and an item is shorter than the buffer. -/
structure Item.Valid (i : Item) : Prop where
  line : ∀ t text, i = .line t text → ¬ [CR, LF] <:+: text
  short : (i.encode.length : ℤ) < REDIS_IOBUF_LEN

def Reply.Valid : Reply → Prop
  | .item i => i.Valid
  | .array items => ∀ i ∈ items, i.Valid

/-- The number of elements of an array is an `int`. -/
def Reply.Counted : Reply → Prop
  | .item _ => True
  | .array items => items.length < 2 ^ 31

/-! ### Line ends -/

/-- A line end at `i`. -/
def EndsAt (s : Bytes) (i : ℕ) : Prop := s.getD i 0 = CR ∧ s.getD (i + 1) 0 = LF

theorem skipToCR_spec (s : Bytes) (len : ℤ) : ∀ (n pos : ℕ), len - pos ≤ n →
    pos ≤ skipToCR s len n pos ∧
    (∀ j, pos ≤ j → j < skipToCR s len n pos → s.getD j 0 ≠ CR) ∧
    ((skipToCR s len n pos : ℤ) < len → s.getD (skipToCR s len n pos) 0 = CR)
  | 0, pos, h => ⟨le_rfl, fun j h1 h2 => absurd h2 (by simp only [skipToCR]; omega),
      fun h1 => by simp only [skipToCR] at h1; push_cast at h; omega⟩
  | n + 1, pos, h => by
    rw [skipToCR]
    split_ifs with hc
    · obtain ⟨h1, h2, h3⟩ := skipToCR_spec s len n (pos + 1) (by push_cast at h ⊢; omega)
      refine ⟨by omega, fun j hj hlt => ?_, h3⟩
      rcases Nat.eq_or_lt_of_le hj with rfl | hj
      · exact hc.2
      · exact h2 j hj hlt
    · refine ⟨le_rfl, fun j h1 h2 => by omega, fun hlt => ?_⟩
      by_contra hcr
      exact hc ⟨hlt, hcr⟩

theorem seekNewlineLoop_spec (s : Bytes) (len : ℤ) : ∀ (n pos : ℕ), len - pos ≤ n →
    match seekNewlineLoop s len n pos with
    | some i => pos ≤ i ∧ (i : ℤ) < len ∧ EndsAt s i ∧ ∀ j, pos ≤ j → j < i → ¬ EndsAt s j
    | none => ∀ j, pos ≤ j → (j : ℤ) < len → ¬ EndsAt s j
  | 0, pos, h => fun j h1 h2 => by push_cast at h; omega
  | n + 1, pos, h => by
    rw [seekNewlineLoop]
    by_cases hlt : (pos : ℤ) < len
    swap
    · rw [if_neg hlt]; intro j h1 h2; omega
    rw [if_pos hlt]
    obtain ⟨h1, h2, h3⟩ := skipToCR_spec s len len.toNat pos (by omega)
    generalize skipToCR s len len.toNat pos = r at *
    dsimp only
    by_cases hstop : s.getD r 0 ≠ CR ∨ (r : ℤ) ≥ len
    · rw [if_pos hstop]
      have hr : len ≤ r := by
        by_contra hr
        rcases hstop with hs | hs
        · exact hs (h3 (by omega))
        · omega
      exact fun j hj hjl hat => h2 j hj (by omega) hat.1
    rw [if_neg hstop]
    push Not at hstop
    have hbefore : ∀ j, pos ≤ j → j < r → ¬ EndsAt s j := fun j hj hjr hat => h2 j hj hjr hat.1
    by_cases hlf : s.getD (r + 1) 0 = LF
    · rw [if_pos hlf]
      exact ⟨h1, hstop.2, ⟨hstop.1, hlf⟩, hbefore⟩
    rw [if_neg hlf]
    have hskip : ∀ j, pos ≤ j → j < r + 1 → ¬ EndsAt s j := fun j hj hjr hat => by
      rcases Nat.lt_succ_iff_lt_or_eq.mp hjr with hjr | rfl
      · exact hbefore j hj hjr hat
      · exact hlf hat.2
    have ih := seekNewlineLoop_spec s len n (r + 1) (by push_cast at h ⊢; omega)
    split at ih
    · obtain ⟨i1, i2, i3, i4⟩ := ih
      refine ⟨by omega, i2, i3, fun j hj hji => ?_⟩
      rcases Nat.lt_or_ge j (r + 1) with hjr | hjr
      · exact hskip j hj hjr
      · exact i4 j hjr hji
    · intro j hj hjl
      rcases Nat.lt_or_ge j (r + 1) with hjr | hjr
      · exact hskip j hj hjr
      · exact ih j hjr hjl

/-- **`seekNewline` finds the first line end.** -/
theorem seekNewline_eq_some {s : Bytes} {len : ℤ} {i : ℕ} (hi : (i : ℤ) + 1 < len)
    (hat : EndsAt s i) (hfirst : ∀ j < i, ¬ EndsAt s j) : seekNewline s len = some i := by
  have hspec := seekNewlineLoop_spec s (len - 1) len.toNat 0 (by omega)
  unfold seekNewline
  split at hspec
  · rename_i k hk
    rw [hk]
    obtain ⟨-, k1, k2, k3⟩ := hspec
    rcases Nat.lt_trichotomy k i with h | rfl | h
    · exact absurd k2 (hfirst k h)
    · rfl
    · exact absurd hat (k3 i (by omega) h)
  · exact absurd hat (hspec i (by omega) (by omega))

theorem seekNewline_eq_some_iff {s : Bytes} {len : ℤ} {i : ℕ} : seekNewline s len = some i ↔
    (i : ℤ) + 1 < len ∧ EndsAt s i ∧ ∀ j < i, ¬ EndsAt s j := by
  refine ⟨fun h => ?_, fun ⟨h1, h2, h3⟩ => seekNewline_eq_some h1 h2 h3⟩
  have hspec := seekNewlineLoop_spec s (len - 1) len.toNat 0 (by omega)
  rw [show seekNewlineLoop s (len - 1) len.toNat 0 = some i from h] at hspec
  obtain ⟨-, h1, h2, h3⟩ := hspec
  exact ⟨by omega, h2, fun j hj => h3 j (Nat.zero_le j) hj⟩

/-- In a line without a line end in it, the first one is behind it. -/
theorem seekNewline_line {text t : Bytes} {len : ℤ} (hno : ¬ [CR, LF] <:+: text)
    (hlen : (text.length : ℤ) + 2 ≤ len) :
    seekNewline (text ++ CR :: LF :: t) len = some text.length := by
  refine seekNewline_eq_some (by omega) ⟨?_, ?_⟩ fun j hj hat => ?_
  · simp [List.getD_eq_getElem?_getD]
  · simp [List.getD_eq_getElem?_getD]
  · obtain ⟨h1, h2⟩ := hat
    rcases Nat.lt_or_ge (j + 1) text.length with hlt | hge
    · apply hno
      rw [List.getD_eq_getElem?_getD, List.getElem?_append_left hj,
        List.getElem?_eq_getElem hj, Option.getD_some] at h1
      rw [List.getD_eq_getElem?_getD, List.getElem?_append_left hlt,
        List.getElem?_eq_getElem hlt, Option.getD_some] at h2
      refine ⟨text.take j, text.drop (j + 2), ?_⟩
      rw [← h1, ← h2]
      simp
    · have hj' : j + 1 = text.length := by omega
      rw [hj', List.getD_eq_getElem?_getD, List.getElem?_append_right le_rfl] at h2
      simp [CR, LF] at h2

/-! ### Numbers -/

theorem digit_bounds {d : ℕ} (h : d < 10) : digit d ≠ CR ∧ ch '0' ≤ digit d ∧ digit d ≤ ch '9' ∧
    ((digit d).toNat : ℤ) - (ch '0').toNat = d := by
  interval_cases d <;> decide

/-- Append a digit to a number. -/
def shift (v : ℤ) (d : ℕ) : ℤ := v * 10 + d

theorem shift_nonneg {v : ℤ} (hv : 0 ≤ v) (d : ℕ) : 0 ≤ shift v d := by unfold shift; omega

theorem le_foldl_shift : ∀ (ds : List ℕ) {v : ℤ}, 0 ≤ v → v ≤ ds.foldl shift v := by
  intro ds
  induction ds with
  | nil =>
    intro _ _
    exact le_rfl
  | cons d ds ih =>
    intro v hv
    have := ih (shift_nonneg hv d)
    rw [List.foldl_cons]
    unfold shift at *; omega

theorem readDigits_digits (t : Bytes) : ∀ (ds : List ℕ) (v : ℤ), (∀ d ∈ ds, d < 10) → 0 ≤ v →
    ds.foldl shift v ≤ LLONG_MAX →
    readDigits 1 (ds.map digit ++ CR :: t) v = .ok (ds.foldl shift v) := by
  intro ds
  induction ds with
  | nil =>
    intro v _ _ _
    simp [readDigits]
  | cons d ds ih =>
    intro v hd hv hmax
    obtain ⟨h1, h2, h3, h4⟩ := digit_bounds (hd d (by simp))
    rw [List.foldl_cons] at hmax ⊢
    have hle := le_foldl_shift ds (shift_nonneg hv d)
    rw [List.map_cons, List.cons_append, readDigits, if_neg h1, if_pos ⟨h2, h3⟩, h4]
    dsimp only
    rw [if_neg (by unfold shift at *; omega)]
    exact ih _ (fun e he => hd e (List.mem_cons_of_mem _ he))
      (shift_nonneg hv d) hmax

theorem foldl_digits (n : ℕ) :
    (Nat.digits 10 n).reverse.foldl shift 0 = n := by
  have h : ∀ ds : List ℕ, ds.reverse.foldl shift 0 =
      (Nat.ofDigits 10 ds : ℕ) := by
    intro ds
    induction ds with
    | nil => rfl
    | cons d ds ih =>
      rw [List.reverse_cons, List.foldl_append, ih]
      simp [Nat.ofDigits_cons, shift]; ring
  rw [h, Nat.ofDigits_digits]

theorem readLongLong_decimalNat {n : ℕ} (hn : (n : ℤ) ≤ LLONG_MAX) (t : Bytes) :
    readLongLong (decimalNat n ++ CR :: t) = .ok (n : ℤ) := by
  have hdig : ∀ d ∈ (Nat.digits 10 n).reverse, d < 10 := fun d hd =>
    Nat.digits_lt_base (by norm_num) (List.mem_reverse.mp hd)
  obtain ⟨b, s, hb⟩ := List.exists_cons_of_ne_nil (decimalNat_ne_nil n)
  obtain ⟨d, hd, rfl⟩ := mem_decimalNat (n := n) (b := b) (by rw [hb]; simp)
  have hplus : digit d ≠ ch '+' := by interval_cases d <;> decide
  have hread : readLongLong (decimalNat n ++ CR :: t) =
      readDigits 1 (decimalNat n ++ CR :: t) 0 := by
    rw [hb, List.cons_append, readLongLong, if_neg (digit_ne_minus hd), if_neg hplus]
  rw [hread]
  unfold decimalNat
  split_ifs with h0
  · subst h0
    exact readDigits_digits t [0] 0 (by simp) le_rfl (by decide)
  · have := readDigits_digits t (Nat.digits 10 n).reverse 0 hdig le_rfl
      (by rw [foldl_digits]; exact hn)
    rwa [foldl_digits] at this

theorem readLongLong_nil (t : Bytes) :
    readLongLong (decimal (-1) ++ CR :: t) = .ok (-1) := by
  have : decimal (-1) = [45, 49] := by decide +kernel
  rw [this]
  simp [readLongLong, readDigits, ch, CR, LLONG_MAX]

theorem CR_not_mem_decimalNat (n : ℕ) : CR ∉ decimalNat n := fun h => by
  obtain ⟨d, hd, he⟩ := mem_decimalNat h
  exact (digit_bounds hd).1 he.symm

theorem no_line_end {s : Bytes} (h : CR ∉ s) : ¬ [CR, LF] <:+: s := fun hin =>
  h (hin.subset (by simp))

theorem toInt_natCast {n : ℕ} (h : n < 2 ^ 31) : toInt n = n :=
  Int.bmod_eq_of_le (by omega) (by omega)

/-! ### The window -/

/-- The bytes not yet consumed are `w`. -/
structure Holds (c : RedisCli) (w : Bytes) : Prop where
  fault : c.fault = none
  pos : 0 ≤ c.rbufPos
  size : (c.rbuf.length : ℤ) = REDIS_IOBUF_LEN
  offset : c.rbufOffset = w.length
  bytes : w <+: c.rbuf.drop c.rbufPos.toNat

section Window
variable {c : RedisCli} {w : Bytes}

theorem Holds.drop {u : Bytes} (h : Holds c (u ++ w)) :
    Holds { c with rbufPos := c.rbufPos + u.length, rbufOffset := c.rbufOffset - u.length } w := by
  obtain ⟨h1, h2, h3, h4, t, ht⟩ := h
  refine ⟨h1, by simp only; omega, h3, ?_, t, ?_⟩
  · simp only [h4, List.length_append]; push_cast; omega
  have hn : (c.rbufPos + (u.length : ℤ)).toNat = c.rbufPos.toNat + u.length := by omega
  simp only [hn]
  rw [← List.drop_drop, ← ht]
  simp

/-- The line at the front of the window is found, -/
theorem Holds.seekNewline {text : Bytes} (h : Holds c (text ++ CR :: LF :: w))
    (hno : ¬ [CR, LF] <:+: text) :
    Cli.seekNewline (c.rbuf.drop c.rbufPos.toNat) c.rbufOffset = some text.length := by
  obtain ⟨t, ht⟩ := h.bytes
  rw [← ht, List.append_assoc]
  exact seekNewline_line hno (by rw [h.offset]; simp; omega)

/-- and the number in it is read. -/
theorem Holds.readLongLong {text : Bytes} {v : ℤ} (h : Holds c (text ++ CR :: LF :: w))
    (hnum : ∀ t, Cli.readLongLong (text ++ CR :: t) = .ok v) :
    Cli.readLongLong (c.rbuf.drop c.rbufPos.toNat) = .ok v := by
  obtain ⟨t, ht⟩ := h.bytes
  rw [← ht, List.append_assoc]
  exact hnum _

theorem Holds.readLine {text : Bytes} (h : Holds c (text ++ CR :: LF :: w))
    (hno : ¬ [CR, LF] <:+: text) :
    c.readLine = some (text, { c with
      rbufPos := c.rbufPos + (text ++ [CR, LF]).length
      rbufOffset := c.rbufOffset - (text ++ [CR, LF]).length }) := by
  obtain ⟨t, ht⟩ := h.bytes
  unfold RedisCli.readLine
  simp only [h.seekNewline hno]
  rw [← ht]
  simp

theorem Holds.le_size (h : Holds c w) (hw : w ≠ []) :
    c.rbufPos + w.length ≤ REDIS_IOBUF_LEN := by
  have hsize := h.size
  have hpos := h.pos
  have hle := h.bytes.length_le
  have h0 := List.length_pos_iff.mpr hw
  rw [List.length_drop] at hle
  omega

/-- What `GetReplyFromReader` does behind the type byte. -/
def dispatch (t : UInt8) (c : RedisCli) : RedisCli × Code :=
  if t = ch '-' ∨ t = ch '+' ∨ t = ch ':' then c.processLineItem
  else if t = ch '$' then c.processBulkItem
  else if t = ch '*' then c.processMultiBulkItem
  else (c, .eparseType)

theorem Holds.getReplyFromReader_eq {t : UInt8} (h : Holds c (t :: w)) :
    c.getReplyFromReader = dispatch t { c with
      rbufPos := c.rbufPos + 1
      rbufOffset := c.rbufOffset - 1 } := by
  have hoff := h.offset
  have hle := h.le_size (by simp)
  have hpos := h.pos
  rw [List.length_cons] at hoff hle
  unfold REDIS_IOBUF_LEN at hle
  obtain ⟨u, hu⟩ := h.bytes
  have hbyte : c.rbuf[c.rbufPos.toNat]? = some t := by
    rw [List.cons_append] at hu
    have := congrArg List.head? hu
    simpa [List.head?_drop] using this.symm
  have hread : c.readBytes 1 = some (c.rbufPos, { c with
      rbufPos := c.rbufPos + 1
      rbufOffset := c.rbufOffset - 1 }) := by
    rw [readBytes, if_pos]
    · simp
    · rw [Int.emod_eq_of_lt (by omega) (by omega)]; push_cast; omega
  rw [RedisCli.getReplyFromReader, if_neg (by omega), hread]
  simp only [hbyte]
  rfl

theorem Holds.getReplyFromReader {t : UInt8} (h : Holds c (t :: w)) :
    ∃ c1, c.getReplyFromReader = dispatch t c1 ∧ Holds c1 w ∧ c1.argv = c.argv ∧
      c1.elements = c.elements ∧ c1.socket = c.socket := by
  have hw : Holds { c with rbufPos := c.rbufPos + 1, rbufOffset := c.rbufOffset - 1 } w := by
    simpa using Holds.drop (u := [t]) h
  exact ⟨_, h.getReplyFromReader_eq, hw, rfl, rfl, rfl⟩

/-- `c'` has taken an item off the window of `c`: `w` is left, and `payloads` is new. -/
structure Took (c c' : RedisCli) (w : Bytes) (payloads : Argv) (elements : ℤ) : Prop where
  holds : Holds c' w
  argv : c'.argv = c.argv ++ payloads
  elements : c'.elements = elements
  socket : c'.socket = c.socket

/-- An item is taken behind its type byte. -/
theorem Took.of_typed {c1 c' : RedisCli} {payloads : Argv} {el : ℤ} (h : Took c1 c' w payloads el)
    (ha : c1.argv = c.argv) (hs : c1.socket = c.socket) : Took c c' w payloads el :=
  ⟨h.holds, by rw [h.argv, ha], h.elements, by rw [h.socket, hs]⟩

theorem processLineItem_took {text : Bytes} (h : Holds c (text ++ CR :: LF :: w))
    (hno : ¬ [CR, LF] <:+: text) :
    ∃ c', c.processLineItem = (c', .ok) ∧ Took c c' w [text] (c.elements - 1) := by
  have hw : Holds _ w := Holds.drop (u := text ++ [CR, LF]) (by simpa using h)
  rw [processLineItem, h.readLine hno]
  exact ⟨_, rfl, ⟨hw.fault, hw.pos, hw.size, hw.offset, hw.bytes⟩, rfl, rfl, rfl⟩

theorem processMultiBulkItem_took {text : Bytes} {v : ℤ} (hno : CR ∉ text)
    (hnum : ∀ t, readLongLong (text ++ CR :: t) = .ok v) (h : Holds c (text ++ CR :: LF :: w)) :
    ∃ c', c.processMultiBulkItem = (c', .ok) ∧ Took c c' w [] (toInt v) := by
  have hw : Holds _ w := Holds.drop (u := text ++ [CR, LF]) (by simpa using h)
  rw [processMultiBulkItem, h.readLine (no_line_end hno)]
  simp only [h.readLongLong hnum]
  exact ⟨_, rfl, ⟨hw.fault, hw.pos, hw.size, hw.offset, hw.bytes⟩, by simp, rfl, rfl⟩

theorem processBulkItem_nil (h : Holds c (decimal (-1) ++ CR :: LF :: w)) :
    ∃ c', c.processBulkItem = (c', .ok) ∧ Took c c' w [] (c.elements - 1) := by
  have hw : Holds _ w := Holds.drop (u := decimal (-1) ++ [CR, LF]) (by simpa using h)
  have hno : ¬ [CR, LF] <:+: decimal (-1) := no_line_end (by decide +kernel)
  have hint : toInt (-1) = -1 := by decide
  unfold processBulkItem
  simp only [h.seekNewline hno, h.readLongLong readLongLong_nil, hint, if_true]
  refine ⟨_, rfl, ⟨hw.fault, ?_, hw.size, ?_, ?_⟩, by simp, rfl, rfl⟩
  · have := hw.pos; simpa using this
  · have := hw.offset; simpa using this
  · have := hw.bytes; simpa using this

theorem processBulkItem_took {payload : Bytes}
    (h : Holds c (decimalNat payload.length ++ CR :: LF :: (payload ++ CR :: LF :: w))) :
    ∃ c', c.processBulkItem = (c', .ok) ∧ Took c c' w [payload] (c.elements - 1) := by
  have hw : Holds _ w := Holds.drop
    (u := decimalNat payload.length ++ [CR, LF] ++ (payload ++ [CR, LF])) (by simpa using h)
  have hle := h.le_size (by simp)
  have hsize := h.size
  have hpos := h.pos
  have hoff := h.offset
  obtain ⟨u, hu⟩ := h.bytes
  simp only [List.length_append, List.length_cons] at hle hoff
  unfold REDIS_IOBUF_LEN at hle hsize
  have hseek := h.seekNewline (no_line_end (CR_not_mem_decimalNat _))
  have hnum := h.readLongLong (readLongLong_decimalNat (by unfold LLONG_MAX; omega))
  have hint : toInt payload.length = payload.length := toInt_natCast (by omega)
  have htake : ((c.rbuf.drop c.rbufPos.toNat).drop
      (((decimalNat payload.length).length : ℤ) + 2).toNat).take (payload.length : ℤ).toNat =
      payload := by
    have hn : (((decimalNat payload.length).length : ℤ) + 2).toNat =
      (decimalNat payload.length).length + 2 := by omega
    have hnil : (decimalNat payload.length).drop ((decimalNat payload.length).length + 2) = [] :=
      List.drop_eq_nil_of_le (by omega)
    rw [← hu, hn, Int.toNat_natCast]
    simp [List.drop_append, hnil]
  unfold processBulkItem
  simp only [hseek, hnum, hint, htake]
  rw [if_neg (by omega), if_neg (by unfold INT_MAX; omega), if_pos (by push_cast at hoff; omega),
    if_neg (by omega), if_neg (by push_cast at hle; omega)]
  refine ⟨_, rfl, ⟨hw.fault, ?_, hw.size, ?_, ?_⟩, rfl, rfl, rfl⟩
  · have := hw.pos; simp only at this ⊢; omega
  · have := hw.offset
    simp only [List.length_append, List.length_cons, List.length_nil] at this ⊢
    push_cast at this ⊢; omega
  · have := hw.bytes
    simp only [List.length_append, List.length_cons, List.length_nil] at this ⊢
    convert this using 3
    push_cast; ring

/-- **An item that is complete in the window is taken.** -/
theorem item_took {i : Item} (hi : ∀ t text, i = .line t text → ¬ [CR, LF] <:+: text)
    (h : Holds c (i.encode ++ w)) :
    ∃ c', c.getReplyFromReader = (c', .ok) ∧ Took c c' w i.payloads (c.elements - 1) := by
  cases i with
  | line t text =>
    obtain ⟨c1, hc, h1, ha, he, hs⟩ := Holds.getReplyFromReader (w := text ++ CR :: LF :: w)
      (by simpa [Item.encode] using h)
    obtain ⟨c', hx, ht⟩ := processLineItem_took h1 (hi t text rfl)
    refine ⟨c', ?_, he ▸ ht.of_typed ha hs⟩
    rw [hc, ← hx, dispatch, if_pos (by cases t <;> simp [LineType.byte])]
  | bulk payload =>
    obtain ⟨c1, hc, h1, ha, he, hs⟩ := Holds.getReplyFromReader
      (w := decimalNat payload.length ++ CR :: LF :: (payload ++ CR :: LF :: w))
      (by simpa [Item.encode] using h)
    obtain ⟨c', hx, ht⟩ := processBulkItem_took h1
    refine ⟨c', ?_, he ▸ ht.of_typed ha hs⟩
    rw [hc, ← hx, dispatch, if_neg (by decide), if_pos rfl]
  | nil =>
    obtain ⟨c1, hc, h1, ha, he, hs⟩ := Holds.getReplyFromReader
      (w := decimal (-1) ++ CR :: LF :: w) (by simpa [Item.encode] using h)
    obtain ⟨c', hx, ht⟩ := processBulkItem_nil h1
    refine ⟨c', ?_, he ▸ ht.of_typed ha hs⟩
    rw [hc, ← hx, dispatch, if_neg (by decide), if_pos rfl]

/-- **The header of an array sets the number of elements.** -/
theorem header_took {text : Bytes} {v : ℤ} (hno : CR ∉ text)
    (hnum : ∀ t, readLongLong (text ++ CR :: t) = .ok v)
    (h : Holds c (ch '*' :: (text ++ [CR, LF]) ++ w)) :
    ∃ c', c.getReplyFromReader = (c', .ok) ∧ Took c c' w [] (toInt v) := by
  obtain ⟨c1, hc, h1, ha, he, hs⟩ := Holds.getReplyFromReader
    (w := text ++ CR :: LF :: w) (by simpa using h)
  obtain ⟨c', hx, ht⟩ := processMultiBulkItem_took hno hnum h1
  refine ⟨c', ?_, ht.of_typed ha hs⟩
  rw [hc, ← hx, dispatch, if_neg (by decide), if_neg (by decide), if_pos rfl]

theorem arrayHeader_took {n : ℕ} (hn : n < 2 ^ 31) (h : Holds c (arrayHeader n ++ w)) :
    ∃ c', c.getReplyFromReader = (c', .ok) ∧ Took c c' w [] n := by
  rw [← toInt_natCast hn]
  exact header_took (CR_not_mem_decimalNat n)
    (readLongLong_decimalNat (by unfold LLONG_MAX; omega)) h

end Window

/-! ### Reads that end with a piece -/

/-- The reader is at the start of the pieces `ps`: some of them are in the window, and the others
come in reads that each end with a piece. -/
structure Feeds (c : RedisCli) (ps : List Bytes) : Prop where
  split : ∃ (here : List Bytes) (later : List (List Bytes)), here ++ later.flatten = ps ∧
    Holds c here.flatten ∧ c.socket = later.map (fun g => ReadResult.data g.flatten) ∧
    ∀ g ∈ later, g ≠ [] ∧ (g.flatten.length : ℤ) ≤ REDIS_IOBUF_LEN
  nonempty : ∀ p ∈ ps, p ≠ []

theorem bufferRead_holds {c : RedisCli} {b : Bytes} {rs : List ReadResult} (h : Holds c [])
    (hs : c.socket = .data b :: rs) (hb : b ≠ []) (hlen : (b.length : ℤ) ≤ REDIS_IOBUF_LEN) :
    ∃ c', c.bufferRead = (c', none) ∧ Holds c' b ∧ c'.argv = c.argv ∧
      c'.elements = c.elements ∧ c'.socket = rs := by
  have hoff := h.offset
  have hsize := h.size
  have hpos := h.pos
  rw [List.length_nil, Nat.cast_zero] at hoff
  have hread : c.bufferRead = readLoop { c with rbufPos := 0 } (.data b :: rs) := by
    unfold bufferRead
    rw [if_neg (show ¬ c.rbufOffset > 0 by omega), ← hs]
    split_ifs with hp
    · rfl
    · have hzero : c.rbufPos = 0 := by omega
      rw [← hzero]
  have hroom : ((c.rbuf.length : ℤ) - 0).toNat = c.rbuf.length := by omega
  have htake : b.take c.rbuf.length = b := List.take_of_length_le (by omega)
  have hdrop : b.drop c.rbuf.length = [] := List.drop_eq_nil_of_le (by omega)
  rw [hread, readLoop]
  simp only [hoff, lt_irrefl, if_false, hroom, htake, hdrop, if_true, hb]
  refine ⟨_, rfl, ⟨h.fault, le_rfl, ?_, by simp, ?_⟩, rfl, rfl, rfl⟩
  · simp only [List.length_append, List.length_drop, Int.toNat_zero, List.take_zero,
      List.length_nil]
    push_cast; omega
  · simp

/-- **The next piece is in the window** after the refill. -/
theorem Feeds.refill {c : RedisCli} {p : Bytes} {ps : List Bytes} (h : Feeds c (p :: ps)) :
    ∃ c1 w, c.refill .ok = (c1, none) ∧ Holds c1 (p ++ w) ∧ c1.argv = c.argv ∧
      c1.elements = c.elements ∧
      ∀ c', Holds c' w → c'.socket = c1.socket → Feeds c' ps := by
  obtain ⟨⟨here, later, hsplit, hh, hs, hg⟩, hne⟩ := h
  have hp := hne p (by simp)
  have hne' : ∀ q ∈ ps, q ≠ [] := fun q hq => hne q (List.mem_cons_of_mem _ hq)
  cases here with
  | cons q here =>
    rw [List.cons_append, List.cons.injEq] at hsplit
    obtain ⟨rfl, hsplit⟩ := hsplit
    rw [List.flatten_cons] at hh
    have hoff : c.rbufOffset ≠ 0 := by
      have := List.length_pos_iff.mpr hp
      rw [hh.offset, List.length_append]; push_cast; omega
    refine ⟨c, here.flatten, ?_, hh, rfl, rfl, fun c' hc' hs' => ?_⟩
    · rw [RedisCli.refill, if_neg (by simp [hoff])]
    · exact ⟨⟨here, later, hsplit, hc', by rw [hs', hs], hg⟩, hne'⟩
  | nil =>
    obtain ⟨g, later, rfl⟩ : ∃ g later', later = g :: later' := by
      cases later with
      | nil => simp at hsplit
      | cons g later => exact ⟨g, later, rfl⟩
    obtain ⟨hg0, hglen⟩ := hg g (by simp)
    obtain ⟨q, g, rfl⟩ := List.exists_cons_of_ne_nil hg0
    rw [List.nil_append, List.flatten_cons, List.cons_append, List.cons.injEq] at hsplit
    obtain ⟨rfl, hsplit⟩ := hsplit
    have hb : (q :: g).flatten ≠ [] := by simp [hp]
    obtain ⟨c1, hread, h1, ha, he, hs1⟩ := bufferRead_holds hh hs hb hglen
    refine ⟨c1, g.flatten, ?_, h1, ha, he, fun c' hc' hs' => ?_⟩
    · rw [RedisCli.refill, if_pos (.inl (by simpa using hh.offset)), hread]
    · exact ⟨⟨g, later, hsplit, hc', by rw [hs', hs1],
        fun g' hg' => hg g' (List.mem_cons_of_mem _ hg')⟩, hne'⟩

/-! ### The loop -/

theorem Item.encode_ne_nil (i : Item) : i.encode ≠ [] := by cases i <;> simp [Item.encode]

theorem getReplyLoop_turn {c c1 c' : RedisCli} {n : ℕ} (hel : c.elements > 0)
    (hr : c.refill .ok = (c1, none)) (h1 : c1.fault = none)
    (hx : c1.getReplyFromReader = (c', .ok)) (h' : c'.fault = none) :
    getReplyLoop (n + 1) c .ok = getReplyLoop n c' .ok := by
  rw [getReplyLoop, if_pos hel, hr]
  simp only [h1, hx, h', ne_eq, not_true_eq_false, if_false]

/-- **A turn of the loop takes a piece.** -/
theorem turn_took {c : RedisCli} {p : Bytes} {ps : List Bytes} (payloads : Argv) (el : ℤ) {n : ℕ}
    (h : Feeds c (p :: ps)) (hel : c.elements > 0)
    (htook : ∀ c1 w, Holds c1 (p ++ w) → c1.elements = c.elements →
      ∃ c', c1.getReplyFromReader = (c', .ok) ∧ Took c1 c' w payloads el) :
    ∃ c', getReplyLoop (n + 1) c .ok = getReplyLoop n c' .ok ∧ Feeds c' ps ∧
      c'.argv = c.argv ++ payloads ∧ c'.elements = el := by
  obtain ⟨c1, w, hr, h1, ha, he, hf⟩ := h.refill
  obtain ⟨c', hx, ht⟩ := htook c1 w h1 he
  exact ⟨c', getReplyLoop_turn hel hr h1.fault hx ht.holds.fault, hf c' ht.holds ht.socket,
    by rw [ht.argv, ha], ht.elements⟩

theorem items_took : ∀ (items : List Item) (ps : List Bytes) {c : RedisCli} {n : ℕ},
    (∀ i ∈ items, i.Valid) → Feeds c (items.map Item.encode ++ ps) → c.elements = items.length →
    items.length < n → ∃ c', getReplyLoop n c .ok = (c', .ok) ∧ Feeds c' ps ∧
      c'.argv = c.argv ++ items.flatMap Item.payloads := by
  intro items
  induction items with
  | nil =>
    intro ps c n _ hf hel hn
    obtain ⟨n, rfl⟩ : ∃ m, n = m + 1 := ⟨n - 1, by simp at hn; omega⟩
    refine ⟨c, ?_, hf, by simp⟩
    rw [getReplyLoop, if_neg (by rw [hel]; simp)]
  | cons i items ih =>
    intro ps c n hv hf hel hn
    obtain ⟨n, rfl⟩ : ∃ m, n = m + 1 := ⟨n - 1, by omega⟩
    rw [List.length_cons] at hel hn
    obtain ⟨c', hl, hf', ha, he⟩ := turn_took (n := n) i.payloads (c.elements - 1)
      hf (by rw [hel]; push_cast; omega) fun c1 w h1 he1 => by
        rw [← he1]; exact item_took (hv i (by simp)).line h1
    obtain ⟨c'', hl', hf'', ha'⟩ := ih ps (n := n)
      (fun j hj => hv j (List.mem_cons_of_mem _ hj)) hf' (by rw [he, hel]; push_cast; omega)
      (by omega)
    exact ⟨c'', hl.trans hl', hf'', by rw [ha', ha]; simp⟩

theorem Feeds.length_le {c : RedisCli} {ps : List Bytes} (h : Feeds c ps) :
    ps.length ≤ c.rbufOffset.toNat + c.pending := by
  obtain ⟨⟨here, later, hsplit, hh, hs, -⟩, hne⟩ := h
  have hpend : c.pending = later.flatten.flatten.length := by
    rw [pending, hs, List.map_map]
    clear hs hsplit
    induction later with
    | nil => rfl
    | cons g later ih =>
      simp only [List.map_cons, List.sum_cons, List.flatten_cons, List.flatten_append,
        List.length_append] at ih ⊢
      rw [ih]; rfl
  have hlen : ∀ qs : List Bytes, (∀ q ∈ qs, q ≠ []) → qs.length ≤ qs.flatten.length := by
    intro qs
    induction qs with
    | nil => simp
    | cons q qs ih =>
      intro hq
      have := List.length_pos_iff.mpr (hq q (by simp))
      have := ih fun r hr => hq r (List.mem_cons_of_mem _ hr)
      simp only [List.flatten_cons, List.length_append, List.length_cons]; omega
  calc ps.length ≤ ps.flatten.length := hlen ps hne
    _ = here.flatten.length + later.flatten.flatten.length := by
      rw [← hsplit, List.flatten_append, List.length_append]
    _ = c.rbufOffset.toNat + c.pending := by rw [hpend, hh.offset, Int.toNat_natCast]

/-- Only the window and the reads matter. -/
theorem Feeds.congr {c c' : RedisCli} {ps : List Bytes} (h : Feeds c ps) (hr : c'.rbuf = c.rbuf)
    (hp : c'.rbufPos = c.rbufPos) (ho : c'.rbufOffset = c.rbufOffset) (hs : c'.socket = c.socket)
    (hf : c'.fault = c.fault) : Feeds c' ps := by
  obtain ⟨⟨here, later, h1, h2, h3, h4⟩, hne⟩ := h
  have hh : Holds c' here.flatten := ⟨by rw [hf, h2.fault], by rw [hp]; exact h2.pos,
    by rw [hr]; exact h2.size, by rw [ho]; exact h2.offset, by rw [hr, hp]; exact h2.bytes⟩
  exact ⟨⟨here, later, h1, hh, by rw [hs, h3], h4⟩, hne⟩

/-- **`Recv` returns the next reply.** -/
theorem recv_reply {c : RedisCli} {r : Reply} {ps : List Bytes} (hv : r.Valid) (hn : r.Counted)
    (h : Feeds c (r.pieces ++ ps)) :
    ∃ c', c.recv = (c', .ok, some r.payloads) ∧ Feeds c' ps := by
  have hle := h.length_le
  have h0 : Feeds { c with argv := [], elements := 1 } (r.pieces ++ ps) :=
    h.congr rfl rfl rfl rfl rfl
  have key : ∃ c', getReply { c with argv := [] } = (c', .ok) ∧ Feeds c' ps ∧
      c'.argv = r.payloads := by
    unfold getReply
    cases r with
    | item i =>
      obtain ⟨c', hl, hf, ha⟩ := items_took [i] ps
        (n := c.rbufOffset.toNat + c.pending + c.rbuf.length + 2)
        (fun j hj => by rw [List.mem_singleton.mp hj]; exact hv)
        (by simpa [Reply.pieces] using h0) rfl (by simp)
      exact ⟨c', hl, hf, by rw [ha]; simp [Reply.payloads]⟩
    | array items =>
      simp only [Reply.pieces, List.cons_append, List.length_cons, List.length_append,
        List.length_map] at hle h0
      obtain ⟨c1, hl1, hf1, ha1, he1⟩ := turn_took [] items.length
        (n := c.rbufOffset.toNat + c.pending + c.rbuf.length + 1) h0 one_pos
        fun c1 w h1 _ => arrayHeader_took hn h1
      obtain ⟨c', hl, hf, ha⟩ := items_took items ps
        (n := c.rbufOffset.toNat + c.pending + c.rbuf.length + 1) hv hf1 he1 (by omega)
      exact ⟨c', hl1.trans hl, hf, by rw [ha, ha1]; simp [Reply.payloads]⟩
  obtain ⟨c', hg, hf, ha⟩ := key
  refine ⟨c', ?_, hf⟩
  rw [recv, hg]
  simp only [ha]

theorem Feeds.fault {c : RedisCli} {ps : List Bytes} (h : Feeds c ps) : c.fault = none := by
  obtain ⟨⟨_, _, _, hh, _⟩, _⟩ := h; exact hh.fault

theorem recvs_replies : ∀ (rs : List Reply) {c : RedisCli}, (∀ r ∈ rs, r.Valid) →
    (∀ r ∈ rs, r.Counted) → Feeds c (rs.flatMap Reply.pieces) →
    recvs rs.length c = rs.map fun r => (.ok, some r.payloads) := by
  intro rs
  induction rs with
  | nil =>
    intro _ _ _ _
    rfl
  | cons r rs ih =>
    intro c hv hn h
    rw [List.flatMap_cons] at h
    obtain ⟨c', hr, hf⟩ := recv_reply (hv r (by simp)) (hn r (by simp)) h
    rw [List.length_cons, recvs, hr]
    simp only [hf.fault, ne_eq, not_true_eq_false, if_false, List.map_cons]
    rw [ih (fun q hq => hv q (List.mem_cons_of_mem _ hq))
      (fun q hq => hn q (List.mem_cons_of_mem _ hq)) hf]

/-! ### Streams of replies -/

/-- A reader that has received nothing, whatever is in its buffer. -/
def fresh (rbuf : Bytes) (reads : List Bytes) : RedisCli :=
  { rbuf := rbuf, socket := reads.map .data }

/-- Every `Recv` returns one reply. -/
def Received (rbuf : Bytes) (reads : List Bytes) (rs : List Reply) : Prop :=
  recvs rs.length (fresh rbuf reads) = rs.map fun r => (.ok, some r.payloads)

/-- Every read ends where a piece of a reply ends. -/
def Aligned (reads : List Bytes) (rs : List Reply) : Prop :=
  ∃ groups : List (List Bytes), groups.flatten = rs.flatMap Reply.pieces ∧
    reads = groups.map List.flatten

theorem pieces_ne_nil {r : Reply} {p : Bytes} (hp : p ∈ r.pieces) : p ≠ [] := by
  cases r with
  | item i => simp only [Reply.pieces, List.mem_singleton] at hp; rw [hp]; exact i.encode_ne_nil
  | array items =>
    simp only [Reply.pieces, List.mem_cons, List.mem_map] at hp
    rcases hp with rfl | ⟨i, -, rfl⟩
    · simp [arrayHeader]
    · exact i.encode_ne_nil

/-- **Reads that end with a piece lose nothing.** -/
theorem recvs_aligned (rs : List Reply) (hv : ∀ r ∈ rs, r.Valid) (hn : ∀ r ∈ rs, r.Counted)
    (rbuf : Bytes) (hbuf : (rbuf.length : ℤ) = REDIS_IOBUF_LEN) (reads : List Bytes)
    (hne : ∀ b ∈ reads, b ≠ [] ∧ (b.length : ℤ) ≤ REDIS_IOBUF_LEN) (hal : Aligned reads rs) :
    Received rbuf reads rs := by
  obtain ⟨groups, hg, rfl⟩ := hal
  refine recvs_replies rs hv hn ⟨⟨[], groups, by simpa using hg, ⟨rfl, le_rfl, hbuf, rfl, by simp⟩,
    by simp [fresh], fun g hgm => ?_⟩, fun p hp => ?_⟩
  · obtain ⟨h1, h2⟩ := hne g.flatten (List.mem_map_of_mem hgm)
    exact ⟨by rintro rfl; simp at h1, h2⟩
  · obtain ⟨r, -, hr⟩ := List.mem_flatMap.mp hp
    exact pieces_ne_nil hr

/-- The buffer of a reader, all zeros. -/
def zeros : Bytes := List.replicate 16384 0

theorem length_zeros : (zeros.length : ℤ) = REDIS_IOBUF_LEN := by
  rw [zeros, List.length_replicate]; rfl

theorem recvs_aligned_pair : Received zeros [bytes "*2\r\n$2\r\nab\r\n", bytes "$-1\r\n+OK\r\n"]
    [.array [.bulk (bytes "ab"), .nil], .item (.line .status (bytes "OK"))] := by
  have hbulk : (Item.bulk (bytes "ab")).Valid := ⟨by simp, by decide +kernel⟩
  have hnil : Item.nil.Valid := ⟨by simp, by decide +kernel⟩
  have hline : (Item.line .status (bytes "OK")).Valid := by
    refine ⟨fun t text h => ?_, by decide +kernel⟩
    cases h; decide +kernel
  refine recvs_aligned _ (fun r hr => ?_) (fun r hr => ?_) zeros length_zeros _ (by decide +kernel)
    ⟨[[bytes "*2\r\n", bytes "$2\r\nab\r\n"], [bytes "$-1\r\n", bytes "+OK\r\n"]],
      by decide +kernel, by decide +kernel⟩
  · simp only [List.mem_cons, List.not_mem_nil, or_false] at hr
    rcases hr with rfl | rfl
    · intro i hi
      simp only [List.mem_cons, List.not_mem_nil, or_false] at hi
      rcases hi with rfl | rfl
      · exact hbulk
      · exact hnil
    · exact hline
  · simp only [List.mem_cons, List.not_mem_nil, or_false] at hr
    rcases hr with rfl | rfl
    · show [Item.bulk (bytes "ab"), .nil].length < 2 ^ 31
      decide
    · trivial

/-- A read that ends behind the type byte of a reply: the byte is lost. -/
theorem not_received_type_byte :
    [bytes "+", bytes "OK\r\n"].flatten = Reply.encode (.item (.line .status (bytes "OK"))) ∧
    ¬ Received zeros [bytes "+", bytes "OK\r\n"] [.item (.line .status (bytes "OK"))] := by
  refine ⟨by decide +kernel, ?_⟩
  unfold Received
  decide +kernel

end Pink.Redis.Recv
