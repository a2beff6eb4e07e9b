import Pink.Redis.Refine
import Pink.Lib.Chunks

/-! # Streams that may be cut anywhere

The parser is not independent of how a stream is cut into chunks. There are four places where a cut
can change what is read:

* an inline request is tokenized from its first byte to the end of the buffer, not of its line;
* the size limit of an unterminated inline line is compared with the length of the whole buffer;
* an empty multibulk request that ends a buffer leaves the request type behind, so that the next
  request is read as a multibulk request whatever its first byte is;
* a bulk header with the value `-1` that ends a buffer is forgotten: `-1` marks a header not read.

`Steady s` says that none of these is met in `s`. For such a stream the scan composes over every cut
(`scan_append`), and so every division is read in the same way (`Composes`). -/

namespace Pink.Redis.Fragment

open Pink.Redis.Wire Pink.Redis.Split2args Pink.Redis.Parser Pink.Redis.Scan Pink.Redis.Refine
open Pink.Lib.Chunks

/-! ### The condition -/

/-- The inline line at the front of `r`, in a stream of length `total`: if it is complete, then the
bytes behind it add nothing to its arguments, and it ends within the size limit, counted from the
start of the stream; if it is not, then it starts the stream or the stream is within the limit. -/
def LineOk (total : ℕ) (r : Bytes) : Prop :=
  match r.idxOf? LF with
  | none => r.length = total ∨ (total : ℤ) ≤ REDIS_INLINE_MAXLEN
  | some i => (i = 0 ∨ (total : ℤ) - r.length + i ≤ REDIS_INLINE_MAXLEN) ∧
      ∀ e ≤ r.length, i < e → split2args (r.take e) = split2args (r.take (i + 1))

variable (string2l : Bytes → ℕ → Option ℤ)

/-- Behind an empty multibulk request at the front of `r` comes another `*`, or no complete line. -/
def EmptyOk (r : Bytes) : Prop :=
  match r.idxOf? LF with
  | none => True
  | some i => num string2l r i = some 0 → peek (r.drop (i + 1)) 0 = ch '*' ∨ LF ∉ r.drop (i + 1)

/-- Behind a bulk header of value `-1` at the front of `r` comes nothing. -/
def NilOk (r : Bytes) : Prop :=
  match r.idxOf? LF with
  | none => True
  | some i => peek r 0 = ch '$' → num string2l r i = some (-1) → r.drop (i + 1) = []

/-- No cut can change the next move. -/
def MoveOk (total : ℕ) (q : Req) (r : Bytes) : Prop :=
  match settle q r with
  | .bulks _ blen _ => blen = -1 → NilOk string2l r
  | .header => EmptyOk string2l r
  | _ => LineOk total r

/-- Where the scan goes on behind a move. -/
def after : Move → Option (Req × Bytes)
  | .next q r => some (q, r)
  | .emit _ r => some (.fresh, r)
  | _ => none

/-- No cut can change a move from here on. -/
def SteadyFrom (total : ℕ) : ℕ → Req → Bytes → Prop
  | 0, _, _ => True
  | n + 1, q, r => (q = .fresh ∧ r = []) ∨ (MoveOk string2l total q r ∧
      match after (step string2l 0 q r) with
      | none => True
      | some (q, r) => SteadyFrom total n q r)

/-- **No place of the stream is reached where a cut changes what is read.** -/
def Steady (s : Bytes) : Prop := SteadyFrom string2l s.length (s.length + 1) .fresh s

instance (total : ℕ) (r : Bytes) : Decidable (LineOk total r) :=
  match h : r.idxOf? LF with
  | none => decidable_of_iff (r.length = total ∨ (total : ℤ) ≤ REDIS_INLINE_MAXLEN)
      (by rw [LineOk, h])
  | some i => decidable_of_iff ((i = 0 ∨ (total : ℤ) - r.length + i ≤ REDIS_INLINE_MAXLEN) ∧
      ∀ e ≤ r.length, i < e → split2args (r.take e) = split2args (r.take (i + 1)))
      (by rw [LineOk, h])

instance (r : Bytes) : Decidable (EmptyOk string2l r) := by
  unfold EmptyOk; split <;> infer_instance

instance (r : Bytes) : Decidable (NilOk string2l r) := by
  unfold NilOk; split <;> infer_instance

instance (total : ℕ) (q : Req) (r : Bytes) : Decidable (MoveOk string2l total q r) := by
  unfold MoveOk; split <;> infer_instance

instance decidableSteadyFrom (total : ℕ) :
    ∀ n q r, Decidable (SteadyFrom string2l total n q r)
  | 0, _, _ => .isTrue trivial
  | n + 1, q, r => by
    unfold SteadyFrom
    have : Decidable (match after (step string2l 0 q r) with
        | none => True
        | some (q, r) => SteadyFrom string2l total n q r) :=
      match after (step string2l 0 q r) with
      | none => .isTrue trivial
      | some (q, r) => decidableSteadyFrom total n q r
    infer_instance

instance (s : Bytes) : Decidable (Steady string2l s) := decidableSteadyFrom _ _ _ _ _

variable {string2l}

/-! ### Moves on a longer rest -/

theorem idxOf?_append_left {a : Bytes} {i : ℕ} (b : Bytes) (h : a.idxOf? LF = some i) :
    (a ++ b).idxOf? LF = some i := by
  unfold List.idxOf? at h ⊢
  rw [List.findIdx?_append, h]; rfl

theorem idxOf?_append_right {a : Bytes} (b : Bytes) (h : a.idxOf? LF = none) :
    (a ++ b).idxOf? LF = (b.idxOf? LF).map (· + a.length) := by
  unfold List.idxOf? at h ⊢
  rw [List.findIdx?_append, h]; rfl

theorem idxOf?_lt {a : Bytes} {i : ℕ} (h : a.idxOf? LF = some i) : i < a.length :=
  (List.idxOf?_eq_some_iff.mp h).1

theorem drop_append_line {a : Bytes} {i : ℕ} (b : Bytes) (h : a.idxOf? LF = some i) :
    (a ++ b).drop (i + 1) = a.drop (i + 1) ++ b :=
  List.drop_append_of_le_length (idxOf?_lt h)

theorem peek_append {a : Bytes} (b : Bytes) (h : a ≠ []) : peek (a ++ b) 0 = peek a 0 := by
  cases a with
  | nil => exact absurd rfl h
  | cons c r => rfl

theorem settle_append {a : Bytes} (q : Req) (b : Bytes) (h : a ≠ []) :
    settle q (a ++ b) = settle q a := by
  unfold settle; rw [peek_append b h]

theorem num_append (hs : String2lSpec string2l) {a b : Bytes} {i : ℕ}
    (hb : (a ++ b).length < 2 ^ 31) (h : a.idxOf? LF = some i) :
    num string2l (a ++ b) i = num string2l a i := by
  have hi := idxOf?_lt h
  have ha : a.length ≤ (a ++ b).length := by simp
  have hd : (a ++ b).drop 1 = a.drop 1 ++ b := List.drop_append_of_le_length (by omega)
  unfold num
  by_cases h2 : 2 ≤ i
  · rw [sizeT_of_nonneg (by omega) (by omega), hd]
    exact hs.append _ _ (by rw [List.length_drop]; omega)
  · -- the length that is handed over is negative, and a huge number as a `size_t`
    have hlong : 2 ^ 64 - 2 ≤ sizeT ((i : ℤ) - 2) := by
      obtain rfl | rfl : i = 0 ∨ i = 1 := by omega
      · decide +kernel
      · decide +kernel
    rw [hs.of_long (by rw [List.length_drop]; omega), hs.of_long (by rw [List.length_drop]; omega)]

/-- `m'` is the move `m` with `b` behind the bytes it was made on; where `m` waits, `m'` is the
next move from there, or has already gone over to it. -/
def Extends (string2l : Bytes → ℕ → Option ℤ) (total : ℕ) (len : ℤ) (b : Bytes) (m m' : Move) :
    Prop :=
  match m with
  | .wait q h => (m' = step string2l len q (h ++ b) ∧ MoveOk string2l total q (h ++ b)) ∨
      (h = [] ∧ m' = .next q b) ∨
      (h = [] ∧ q = .header ∧ m' = .emit [] b ∧ (peek b 0 = ch '*' ∨ LF ∉ b))
  | .error e => m' = .error e
  | .fault f => m' = .fault f
  | .next q r => m' = .next q (r ++ b)
  | .emit argv r => m' = .emit argv (r ++ b)

theorem inlineMove_append {total : ℕ} {a b : Bytes} {la lab : ℤ} (ha : a ≠ []) (ha1 : a.length ≤ la)
    (ha2 : la + b.length ≤ total) (hab1 : ((a ++ b).length : ℤ) ≤ lab)
    (hab2 : lab ≤ total) (hok : LineOk total (a ++ b)) :
    Extends string2l total lab b (inlineMove la a) (inlineMove lab (a ++ b)) := by
  have hpos := List.length_pos_iff.mpr ha
  have hlen : (a ++ b).length = a.length + b.length := List.length_append
  have h0 := hok
  unfold LineOk at hok
  rcases hi : a.idxOf? LF with _ | i
  · have hr := idxOf?_append_right b hi
    by_cases hl : la > REDIS_INLINE_MAXLEN
    · -- the limit is exceeded: then the line is the stream, and is not complete
      have hm : inlineMove la a = .error .fullError := by rw [inlineMove, hi]; simp [hl]
      rw [hm]
      rcases hj : b.idxOf? LF with _ | j <;> rw [hj] at hr <;> simp only [Option.map] at hr <;>
        rw [hr] at hok <;> dsimp only at hok
      · have : lab > REDIS_INLINE_MAXLEN := by omega
        simp [Extends, inlineMove, hr, this]
      · exfalso; omega
    · have hm : inlineMove la a = .wait .inline a := by rw [inlineMove, hi]; simp [hl]
      rw [hm]
      exact .inl ⟨rfl, h0⟩
  · have hj := idxOf?_append_left b hi
    have hlt := idxOf?_lt hi
    rw [hj] at hok
    have hsp : split2args (a ++ b) = split2args a := by
      have h1 := hok.2 (a ++ b).length le_rfl (by omega)
      have h2 := hok.2 a.length (by omega) hlt
      rw [List.take_length] at h1
      rw [List.take_left] at h2
      rw [h1, h2]
    unfold inlineMove
    rw [hi, hj, hsp]
    dsimp only
    rw [drop_append_line b hi]
    rcases split2args a with _ | argv
    · rfl
    · rfl

theorem headerMove_append (hs : String2lSpec string2l) {total : ℕ} {a b : Bytes} (hb : b ≠ [])
    {lab : ℤ} (hlen : (a ++ b).length < 2 ^ 31) (hok : EmptyOk string2l (a ++ b)) :
    Extends string2l total lab b (headerMove string2l a) (headerMove string2l (a ++ b)) := by
  have h0 := hok
  unfold EmptyOk at hok
  rcases hi : a.idxOf? LF with _ | i
  · have hm : headerMove string2l a = .wait .header a := by rw [headerMove, hi]
    rw [hm]
    exact .inl ⟨rfl, h0⟩
  · have hj := idxOf?_append_left b hi
    rw [hj] at hok
    dsimp only at hok
    unfold headerMove
    rw [hi, hj]
    dsimp only
    rw [num_append hs hlen hi, drop_append_line b hi] at *
    by_cases h0 : i = 0
    · rw [if_pos h0, if_pos h0]; rfl
    rw [if_neg h0, if_neg h0]
    rcases hn : num string2l a i with _ | v
    · rfl
    dsimp only
    have hne : a.drop (i + 1) ++ b ≠ [] := by simp [hb]
    rw [if_neg hne]
    by_cases hnil : a.drop (i + 1) = []
    · rw [if_pos hnil, hnil, List.nil_append]
      by_cases hv : v = 0
      · subst hv
        rw [if_pos rfl, if_pos rfl]
        rw [hnil, List.nil_append] at hok
        exact .inr (.inr ⟨rfl, rfl, rfl, hok hn⟩)
      · rw [if_neg hv, if_neg hv]
        exact .inr (.inl ⟨rfl, rfl⟩)
    · rw [if_neg hnil]
      by_cases hv : v = 0
      · rw [if_pos hv, if_pos hv]; rfl
      · rw [if_neg hv, if_neg hv]; rfl

theorem payloadMove_append {total : ℕ} {m l : ℤ} {v : Argv} {a b : Bytes} {lab : ℤ}
    (hl : l ≠ -1) :
    Extends string2l total lab b (payloadMove m l v a) (payloadMove m l v (a ++ b)) := by
  unfold payloadMove
  by_cases h1 : l + 2 > LONG_MAX
  · rw [if_pos h1, if_pos h1]; rfl
  rw [if_neg h1, if_neg h1]
  by_cases h2 : (a.length : ℤ) < l + 2
  · rw [if_pos h2]
    refine .inl ⟨?_, fun h => absurd h hl⟩
    show _ = bulkMove string2l m l v (a ++ b)
    rw [bulkMove, if_neg hl, payloadMove, if_neg h1]
  have h2' : ¬ ((a ++ b).length : ℤ) < l + 2 := by rw [List.length_append]; push_cast; omega
  rw [if_neg h2, if_neg h2']
  by_cases h3 : l < 0
  · rw [if_pos h3, if_pos h3]; rfl
  rw [if_neg h3, if_neg h3]
  by_cases h4 : m = LONG_MIN
  · rw [if_pos h4, if_pos h4]; rfl
  rw [if_neg h4, if_neg h4, List.take_append_of_le_length (by omega),
    List.drop_append_of_le_length (by omega)]
  by_cases h5 : m - 1 = 0
  · rw [if_pos h5, if_pos h5]; rfl
  · rw [if_neg h5, if_neg h5]; rfl

theorem bulkMove_append (hs : String2lSpec string2l) {total : ℕ} {m l : ℤ} {v : Argv}
    {a b : Bytes} (hb : b ≠ []) {lab : ℤ} (hlen : (a ++ b).length < 2 ^ 31)
    (hok : l = -1 → NilOk string2l (a ++ b)) :
    Extends string2l total lab b (bulkMove string2l m l v a)
      (bulkMove string2l m l v (a ++ b)) := by
  by_cases hl : l = -1
  swap
  · rw [bulkMove, bulkMove, if_neg hl, if_neg hl]; exact payloadMove_append hl
  have h0 := hok
  have hok := hok hl
  unfold NilOk at hok
  rcases hi : a.idxOf? LF with _ | i
  · have hm : bulkMove string2l m l v a = .wait (.bulks m l v) a := by rw [bulkMove, if_pos hl, hi]
    rw [hm]
    exact .inl ⟨rfl, h0⟩
  have hj := idxOf?_append_left b hi
  have hne : a ≠ [] := by rintro rfl; simp at hi
  rw [hj] at hok
  dsimp only at hok
  unfold bulkMove
  rw [if_pos hl, if_pos hl, hi, hj]
  dsimp only
  rw [num_append hs hlen hi, drop_append_line b hi, peek_append b hne] at *
  by_cases hd : peek a 0 ≠ ch '$'
  · rw [if_pos hd, if_pos hd]; rfl
  rw [if_neg hd, if_neg hd]
  rcases hn : num string2l a i with _ | w
  · rfl
  dsimp only
  have hw : w ≠ -1 := by
    rintro rfl
    simpa [hb] using hok (by simpa using hd) hn
  rw [if_neg (show a.drop (i + 1) ++ b ≠ [] by simp [hb])]
  by_cases hnil : a.drop (i + 1) = []
  · rw [if_pos hnil, hnil, List.nil_append]
    refine .inl ⟨?_, fun h => absurd h hw⟩
    show _ = bulkMove string2l m w v b
    rw [bulkMove, if_neg hw]
  · rw [if_neg hnil]; exact payloadMove_append hw

/-- **A move on a longer rest.** -/
theorem step_append (hs : String2lSpec string2l) {total : ℕ} {q : Req} {a b : Bytes} {la lab : ℤ}
    (ha : a = [] → ∃ m l v, q = .bulks m l v) (hb : b ≠ []) (ha1 : a.length ≤ la)
    (ha2 : la + b.length ≤ total) (hab1 : ((a ++ b).length : ℤ) ≤ lab) (hab2 : lab ≤ total)
    (htot : total < 2 ^ 31) (hok : MoveOk string2l total q (a ++ b)) :
    Extends string2l total lab b (step string2l la q a) (step string2l lab q (a ++ b)) := by
  have hlen : (a ++ b).length < 2 ^ 31 := by omega
  by_cases hnil : a = []
  · obtain ⟨m, l, v, rfl⟩ := ha hnil
    exact bulkMove_append hs hb hlen hok
  unfold step MoveOk at *
  rw [settle_append q b hnil] at *
  rcases hq : settle q a with _ | _ | _ | ⟨m, l, v⟩ <;> rw [hq] at hok
  · exact inlineMove_append hnil ha1 ha2 hab1 hab2 hok
  · exact inlineMove_append hnil ha1 ha2 hab1 hab2 hok
  · exact headerMove_append hs hb hlen hok
  · exact bulkMove_append hs hb hlen hok

/-! ### Scans of a longer rest -/

theorem inlineMove_len (l l' : ℤ) (r : Bytes) :
    after (inlineMove l r) = after (inlineMove l' r) := by
  unfold inlineMove
  rcases r.idxOf? LF with _ | i
  · dsimp only; split_ifs <;> rfl
  · rfl

/-- The length of the buffer does not matter for where the scan goes on. -/
theorem after_step_len (l l' : ℤ) (q : Req) (r : Bytes) :
    after (step string2l l q r) = after (step string2l l' q r) := by
  unfold step
  rcases settle q r with _ | _ | _ | ⟨m, b, v⟩
  · exact inlineMove_len l l' r
  · exact inlineMove_len l l' r
  · rfl
  · rfl

theorem after_shorter {l : ℤ} {q q' : Req} {r r' : Bytes}
    (h : after (step string2l l q r) = some (q', r')) : r'.length < r.length := by
  rcases hm : step string2l l q r with ⟨_, _⟩ | _ | _ | ⟨p, s⟩ | ⟨w, s⟩ <;> rw [hm] at h <;> cases h
  · exact step_next_shorter hm
  · exact step_emit_shorter hm

/-- What `SteadyFrom` says of the next move and of what comes behind it. -/
theorem steadyFrom_succ {total n : ℕ} {q : Req} {r : Bytes} (hne : ¬ (q = .fresh ∧ r = [])) :
    SteadyFrom string2l total (n + 1) q r ↔ MoveOk string2l total q r ∧
      ∀ l q' r', after (step string2l l q r) = some (q', r') →
        SteadyFrom string2l total n q' r' := by
  rw [SteadyFrom]
  simp only [hne, false_or, and_congr_right_iff]
  intro _
  constructor
  · intro h l q' r' hq
    rw [after_step_len l 0] at hq
    rw [hq] at h
    exact h
  · intro h
    split
    · trivial
    · rename_i q' r' hq; exact h 0 q' r' hq

theorem steadyFrom_fuel {total : ℕ} : ∀ {n m : ℕ} {q : Req} {r : Bytes}, r.length < n →
    r.length < m → SteadyFrom string2l total n q r → SteadyFrom string2l total m q r
  | 0, _, _, _, h, _, _ => by omega
  | _, 0, _, _, _, h, _ => by omega
  | n + 1, m + 1, q, r, hn, hm, h => by
    by_cases hne : q = .fresh ∧ r = []
    · exact .inl hne
    rw [steadyFrom_succ hne] at h ⊢
    refine ⟨h.1, fun l q' r' hq => ?_⟩
    have := after_shorter hq
    exact steadyFrom_fuel (by omega) (by omega) (h.2 l q' r' hq)

theorem inlineMove_eq {total : ℕ} {r : Bytes} {l l' : ℤ} (hl1 : (r.length : ℤ) ≤ l)
    (hl2 : l ≤ total) (hl1' : (r.length : ℤ) ≤ l') (hl2' : l' ≤ total) (hok : LineOk total r) :
    inlineMove l r = inlineMove l' r := by
  unfold inlineMove
  unfold LineOk at hok
  rcases hi : r.idxOf? LF with _ | i <;> rw [hi] at hok
  · have : l > REDIS_INLINE_MAXLEN ↔ l' > REDIS_INLINE_MAXLEN := by dsimp only at hok; omega
    simp only [this]

theorem step_eq {total : ℕ} {q : Req} {r : Bytes} {l l' : ℤ} (hl1 : (r.length : ℤ) ≤ l)
    (hl2 : l ≤ total) (hl1' : (r.length : ℤ) ≤ l') (hl2' : l' ≤ total)
    (hok : MoveOk string2l total q r) : step string2l l q r = step string2l l' q r := by
  unfold step MoveOk at *
  rcases hq : settle q r with _ | _ | _ | ⟨m, b, v⟩ <;> rw [hq] at hok
  · exact inlineMove_eq hl1 hl2 hl1' hl2' hok
  · exact inlineMove_eq hl1 hl2 hl1' hl2' hok

/-- In a steady stream the length of the buffer does not matter. -/
theorem scan_len {total : ℕ} {l l' : ℤ} (hl2 : l ≤ total) (hl2' : l' ≤ total) :
    ∀ {n : ℕ} {q : Req} {r : Bytes}, (r.length : ℤ) ≤ l → (r.length : ℤ) ≤ l' →
      SteadyFrom string2l total n q r → scan string2l l n q r = scan string2l l' n q r
  | 0, _, _, _, _, _ => rfl
  | n + 1, q, r, hl1, hl1', h => by
    simp only [scan]
    by_cases hne : q = .fresh ∧ r = []
    · rw [if_pos hne, if_pos hne]
    rw [if_neg hne, if_neg hne]
    rw [steadyFrom_succ hne] at h
    rw [step_eq hl1 hl2 hl1' hl2' h.1]
    rcases hm : step string2l l' q r with ⟨p, s⟩ | e | f | ⟨p, s⟩ | ⟨w, s⟩ <;> dsimp only
    · have := step_next_shorter hm
      exact scan_len hl2 hl2' (by omega) (by omega) (h.2 l' p s (by rw [hm]; rfl))
    · have := step_emit_shorter hm
      rw [scan_len hl2 hl2' (by omega) (by omega) (h.2 l' .fresh s (by rw [hm]; rfl))]

/-- With a byte to read, only the settled type of the request matters. -/
theorem step_settle {l : ℤ} {q q' : Req} {r : Bytes} (h : settle q r = settle q' r) :
    step string2l l q r = step string2l l q' r := by
  unfold step; rw [h]

theorem scan_settle {l : ℤ} {q q' : Req} {r : Bytes} (hr : r ≠ []) (h : settle q r = settle q' r)
    (n : ℕ) : scan string2l l n q r = scan string2l l n q' r := by
  cases n with
  | zero => rfl
  | succ n => simp only [scan, hr, and_false, if_false, step_settle h]

theorem steadyFrom_settle {total : ℕ} {q q' : Req} {r : Bytes} (hr : r ≠ [])
    (h : settle q r = settle q' r) {n : ℕ} (hq : SteadyFrom string2l total n q r) :
    SteadyFrom string2l total n q' r := by
  cases n with
  | zero => trivial
  | succ n =>
    rw [steadyFrom_succ (by simp [hr])] at hq ⊢
    refine ⟨?_, fun l q1 r1 h1 => hq.2 l q1 r1 (by rw [step_settle h]; exact h1)⟩
    have := hq.1
    unfold MoveOk at this ⊢
    rw [← h]; exact this

/-- A move on a longer rest, as the scan sees it: behind a move that waits, the scan of the longer
rest is the scan from there. -/
theorem scan_of_wait {len : ℤ} {b : Bytes} {n : ℕ} {q q' : Req} {a h : Bytes} (hb : b ≠ [])
    (hm : step string2l len q (a ++ b) = step string2l len q' (h ++ b)) :
    scan string2l len n q (a ++ b) = scan string2l len n q' (h ++ b) := by
  cases n with
  | zero => rfl
  | succ n => simp only [scan, List.append_eq_nil_iff, hb, and_false, if_false, hm]

/-- How a scan ends, as the end of a chunk: a state to go on from, or a verdict. -/
def outcome : End → (Req × Bytes) ⊕ (RedisParserError ⊕ Fault)
  | .wait q r => .inl (q, r)
  | .error e => .inr (.inl e)
  | .fault f => .inr (.inr f)

def result (x : List Argv × End) : List Argv × ((Req × Bytes) ⊕ (RedisParserError ⊕ Fault)) :=
  (x.1, outcome x.2)

/-- What is seen of a waiting parser: whether it is between two requests. -/
def between (s : Req × Bytes) : Bool := s.1 = .fresh

/-- The scan of the rest of one chunk and then of the next one. -/
def both (string2l : Bytes → ℕ → Option ℤ) (x : List Argv × End) (b : Bytes) :
    List Argv × ((Req × Bytes) ⊕ (RedisParserError ⊕ Fault)) :=
  andThen (result x) fun s => result (call string2l s.1 (s.2 ++ b))

theorem seen_deliver {argv : Argv} {x y : List Argv × End} {b : Bytes}
    (h : seen between (result x) = seen between (both string2l y b)) :
    seen between (result (Scan.deliver argv x)) =
      seen between (both string2l (Scan.deliver argv y) b) := by
  unfold Scan.deliver
  by_cases ha : argv = []
  · rw [if_pos ha, if_pos ha]; exact h
  rw [if_neg ha, if_neg ha]
  obtain ⟨ys, ⟨q, r⟩ | e | f⟩ := y <;>
    simp only [seen, both, result, outcome, andThen, Prod.mk.injEq] at h ⊢ <;>
    exact ⟨by simp [h.1], h.2⟩

/-- What is kept for the next chunk is a part of what was unread. -/
theorem step_wait_le {l : ℤ} {q q' : Req} {r h : Bytes} (hm : step string2l l q r = .wait q' h) :
    h.length ≤ r.length := by
  have hs : leaves (step string2l l q r) = some h := by rw [hm]; rfl
  exact (step_leaves hs).length_le

theorem deliver_snd (argv : Argv) (x : List Argv × End) : (Scan.deliver argv x).2 = x.2 := by
  unfold Scan.deliver; split_ifs <;> rfl

theorem step_next_bulks {l : ℤ} {q q' : Req} {r r' : Bytes}
    (hm : step string2l l q r = .next q' r') : ∃ m v, q' = .bulks m (-1) v := by
  unfold step at hm
  split at hm
  · exact bulkMove_next hm
  · obtain ⟨i, v, -, -, -, -, -, rfl, -⟩ := headerMove_next hm; exact ⟨_, _, rfl⟩
  · unfold inlineMove at hm
    split at hm
    · split_ifs at hm
    · split at hm <;> cases hm

theorem step_wait_ne_fresh {l : ℤ} {q q' : Req} {r h : Bytes}
    (hm : step string2l l q r = .wait q' h) : q' ≠ .fresh := by
  unfold step at hm
  split at hm
  · exact bulkMove_wait hm
  · exact headerMove_wait hm
  · unfold inlineMove at hm
    split at hm
    · split_ifs at hm; cases hm; simp
    · split at hm <;> cases hm

section Cut
variable {total : ℕ} {b : Bytes}

/-- An empty request at the end of a chunk: the type that it leaves behind makes no difference. -/
theorem header_of_fresh {n : ℕ} {len : ℤ} (hb : b ≠ []) (hn : b.length < n) (hlt : b.length < total)
    (hlen : (b.length : ℤ) ≤ len) (hlen' : len ≤ total) (hok : peek b 0 = ch '*' ∨ LF ∉ b)
    (hst : SteadyFrom string2l total n .fresh b) :
    SteadyFrom string2l total (b.length + 1) .header b ∧
    seen between (result (scan string2l len n .fresh b)) =
      seen between (result (call string2l .header b)) := by
  have hb' : ¬ (Req.fresh = .fresh ∧ b = []) := by simp [hb]
  by_cases hstar : peek b 0 = ch '*'
  · have hset : settle .fresh b = settle .header b := by simp [settle, hstar]
    have hst' := steadyFrom_fuel hn (lt_add_one _) (steadyFrom_settle hb hset hst)
    refine ⟨hst', ?_⟩
    rw [scan_fuel len n (b.length + 1) .fresh b hn (lt_add_one _), scan_settle hb hset, call,
      scan_len hlen' (by omega) hlen le_rfl hst']
  -- the rest is an unterminated line: both wait for its end
  have hno : b.idxOf? LF = none := List.idxOf?_eq_none_iff.mpr (hok.resolve_left hstar)
  obtain ⟨n, rfl⟩ : ∃ k, n = k + 1 := ⟨n - 1, by omega⟩
  rw [steadyFrom_succ hb'] at hst
  have hline := hst.1
  simp only [MoveOk, settle, if_neg hstar, LineOk, hno] at hline
  have hwait : step string2l len .fresh b = .wait .inline b := by
    simp only [step, settle, if_neg hstar, inlineMove, hno]
    rw [if_neg (by omega)]
  have hwait' : ∀ l, step string2l l .header b = .wait .header b := by
    intro l; simp only [step, settle, headerMove, hno]
  constructor
  · rw [steadyFrom_succ (by simp)]
    refine ⟨by simp only [MoveOk, settle, EmptyOk, hno], fun l q r h => ?_⟩
    rw [hwait'] at h; cases h
  · simp only [call, scan, hb, and_false, if_false, hwait, hwait', result, seen, outcome]
    rfl

/-- Behind a move that waits, the scan of the longer rest is the scan from there. -/
theorem wait_append {n : ℕ} {q q' : Req} {a h : Bytes} {len : ℤ} (hb : b ≠ [])
    (hh : h.length ≤ a.length) (hn : (a ++ b).length < n + 1)
    (hlen : ((a ++ b).length : ℤ) ≤ len) (hlen' : len ≤ total)
    (hst : SteadyFrom string2l total (n + 1) q (a ++ b))
    (hm : Extends string2l total len b (.wait q' h) (step string2l len q (a ++ b))) :
    SteadyFrom string2l total ((h ++ b).length + 1) q' (h ++ b) ∧
    seen between (result (scan string2l len (n + 1) q (a ++ b))) =
      seen between (result (call string2l q' (h ++ b))) := by
  have hab : (a ++ b).length = a.length + b.length := List.length_append
  have hhb : (h ++ b).length = h.length + b.length := List.length_append
  have hne : ¬ (q = .fresh ∧ a ++ b = []) := by simp [hb]
  rw [steadyFrom_succ hne] at hst
  rcases hm with ⟨hm, hok⟩ | ⟨rfl, hm⟩ | ⟨rfl, rfl, hm, hok⟩
  · have hst' : SteadyFrom string2l total (n + 1) q' (h ++ b) := by
      rw [steadyFrom_succ (by simp [hb])]
      refine ⟨hok, fun l p r hp => hst.2 len p r ?_⟩
      rw [hm, after_step_len len l]; exact hp
    have hst'' := steadyFrom_fuel (by omega) (lt_add_one _) hst'
    refine ⟨hst'', ?_⟩
    rw [scan_of_wait hb hm, scan_fuel len (n + 1) ((h ++ b).length + 1) _ _ (by omega) (by omega),
      call, scan_len hlen' (by omega) (by omega) le_rfl hst'']
  · have hlt : b.length < n := by
      have := step_next_shorter hm; omega
    have hst' := hst.2 len q' b (by rw [hm]; rfl)
    have hst'' := steadyFrom_fuel hlt (lt_add_one _) hst'
    refine ⟨hst'', ?_⟩
    simp only [scan, if_neg hne, hm, List.nil_append]
    rw [scan_fuel len n (b.length + 1) _ _ hlt (lt_add_one _), call,
      scan_len hlen' (by omega) (by omega) le_rfl hst'']
  · have hlt := step_emit_shorter hm
    have hst' := hst.2 len .fresh b (by rw [hm]; rfl)
    simp only [scan, if_neg hne, hm, Scan.deliver, if_true, List.nil_append]
    exact header_of_fresh hb (by omega) (by omega) (by omega) hlen' hok hst'

/-- **The scan composes over a cut**: `a` is unread of one chunk, and `b` is the next one. -/
theorem scan_append (hs : String2lSpec string2l) (htot : total < 2 ^ 31) (hb : b ≠ [])
    (la lab : ℤ) (hla : la + b.length ≤ total) (hlab : lab ≤ total) :
    ∀ (n : ℕ) (q : Req) (a : Bytes),
      (a ++ b).length < n → (a = [] → q ≠ .inline ∧ q ≠ .header) → (a.length : ℤ) ≤ la →
      ((a ++ b).length : ℤ) ≤ lab → SteadyFrom string2l total n q (a ++ b) →
      seen between (result (scan string2l lab n q (a ++ b))) =
        seen between (both string2l (scan string2l la n q a) b) ∧
      ∀ q' h, (scan string2l la n q a).2 = .wait q' h → h.length ≤ a.length ∧
        SteadyFrom string2l total ((h ++ b).length + 1) q' (h ++ b)
  | 0, _, _, h, _, _, _, _ => by omega
  | n + 1, q, a, hn, ha, hla1, hlab1, hst => by
    have hab : (a ++ b).length = a.length + b.length := List.length_append
    by_cases hfr : q = .fresh ∧ a = []
    · obtain ⟨rfl, rfl⟩ := hfr
      rw [List.nil_append] at hst hlab1 hn ⊢
      have hst' := steadyFrom_fuel hn (lt_add_one _) hst
      constructor
      · rw [scan_fuel lab (n + 1) (b.length + 1) _ _ hn (lt_add_one _),
          scan_len hlab (by omega) hlab1 le_rfl hst']
        simp [scan, both, result, outcome, andThen, call]
      · intro q' h hw
        simp only [scan, and_self, if_true, End.wait.injEq] at hw
        obtain ⟨rfl, rfl⟩ := hw
        exact ⟨le_rfl, hst'⟩
    have hne : ¬ (q = .fresh ∧ a ++ b = []) := by simp [hb]
    have hst0 := hst
    rw [steadyFrom_succ hne] at hst
    have hbulk : a = [] → ∃ m l v, q = .bulks m l v := by
      intro h0
      obtain ⟨h1, h2⟩ := ha h0
      cases q with
      | fresh => exact absurd ⟨rfl, h0⟩ hfr
      | inline => exact absurd rfl h1
      | header => exact absurd rfl h2
      | bulks m l v => exact ⟨m, l, v, rfl⟩
    have hext := step_append hs hbulk hb hla1 hla hlab1 hlab htot hst.1
    rcases hm : step string2l la q a with ⟨p, s⟩ | e | f | ⟨p, s⟩ | ⟨w, s⟩ <;> rw [hm] at hext
    · have hle := step_wait_le hm
      obtain ⟨h1, h2⟩ := wait_append hb hle hn hlab1 hlab hst0 hext
      simp only [scan, if_neg hfr, hm] at h2 ⊢
      constructor
      · rw [h2]; simp [both, result, outcome, andThen]
      · intro q' h hw
        simp only [End.wait.injEq] at hw
        obtain ⟨rfl, rfl⟩ := hw
        exact ⟨hle, h1⟩
    · have hx : step string2l lab q (a ++ b) = .error e := hext
      simp only [scan, if_neg hfr, if_neg hne, hm, hx, reduceCtorEq, false_implies, implies_true,
        and_true]
      rfl
    · have hx : step string2l lab q (a ++ b) = .fault f := hext
      simp only [scan, if_neg hfr, if_neg hne, hm, hx, reduceCtorEq, false_implies, implies_true,
        and_true]
      rfl
    · have hx : step string2l lab q (a ++ b) = .next p (s ++ b) := hext
      have hlt := step_next_shorter hm
      have hltb := step_next_shorter hx
      obtain ⟨m, v, rfl⟩ := step_next_bulks hm
      simp only [scan, if_neg hfr, if_neg hne, hm, hx]
      obtain ⟨h1, h2⟩ := scan_append hs htot hb la lab hla hlab n (.bulks m (-1) v) s
        (by omega) (by simp) (by omega) (by omega) (hst.2 lab _ _ (by rw [hx]; rfl))
      exact ⟨h1, fun q' h hw => ⟨by have := (h2 q' h hw).1; omega, (h2 q' h hw).2⟩⟩
    · have hx : step string2l lab q (a ++ b) = .emit w (s ++ b) := hext
      have hlt := step_emit_shorter hm
      have hltb := step_emit_shorter hx
      simp only [scan, if_neg hfr, if_neg hne, hm, hx]
      obtain ⟨h1, h2⟩ := scan_append hs htot hb la lab hla hlab n .fresh s (by omega) (by simp)
        (by omega) (by omega) (hst.2 lab _ _ (by rw [hx]; rfl))
      refine ⟨seen_deliver h1, fun q' h hw => ?_⟩
      rw [deliver_snd] at hw
      exact ⟨by have := (h2 q' h hw).1; omega, (h2 q' h hw).2⟩

end Cut

end Pink.Redis.Fragment
