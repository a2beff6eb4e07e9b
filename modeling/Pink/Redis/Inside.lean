import Pink.Redis.Scanner

/-! # The scanner of a format stays inside

The loop with pointers computes what the loop over lists does (`redisvFormatCommand_val`). One turn
reads nothing behind the terminating NUL (`turn_within`), but `strchr` finds the NUL in every set of
letters: a conversion that ends in its flags, its width or its precision counts as one of an `int`,
and the next turn is behind the NUL. The scanner stays inside, rejects every incomplete conversion
and leaves `*cmd` alone with `REDIS_ERR` exactly if every turn that is reached is `Fine`
(`inside_iff`). -/

namespace Pink.Redis.Inside

open Pink.Redis.Wire Pink.Redis.Format Pink.Redis.Scanner Pink.Lib.Reads
open Pink.Redis.Serialize hiding formatLoop redisvFormatCommand skipFlag skipWidth fmtValid strchr

section Run
variable {vsnprintf : Bytes → VaArg → Option Bytes} {format : Bytes}

theorem formatLoop_skip (f : Bytes) : ∀ (k : ℕ) (s : Builder), Serialize.formatLoop vsnprintf k f s =
    if k ≤ f.length then Serialize.formatLoop vsnprintf 0 (f.drop k) s
    else .error .outOfBounds := by
  induction f with
  | nil =>
    intro k s
    cases k with
    | zero => simp
    | succ k => rw [Serialize.formatLoop, if_neg (by simp)]
  | cons b f ih =>
    intro k s
    cases k with
    | zero => simp
    | succ k =>
      rw [Serialize.formatLoop, ih, List.drop_succ_cons, List.length_cons]
      simp only [Nat.add_le_add_iff_right]

theorem turn_behind {c : ℕ} (hc : format.length < c) (s : Builder) :
    (turn vsnprintf format c s).val = .fault .outOfBounds := by
  simp only [turn, Scan.val_bind, if_pos hc, Scan.val_pure]

variable (h0 : 0 ∉ format)
include h0

variable (vsnprintf) in
/-- **One turn reads nothing behind the NUL**, and moves `c` behind it only at an open conversion. -/
theorem turn_within {c : ℕ} (hc : c ≤ format.length) (s : Builder) :
    (turn vsnprintf format c s).Within format.length ∧
      ∀ s' c', (turn vsnprintf format c s).val = .next c' s' →
        c < c' ∧ (c' ≤ format.length ∨ c' = format.length + 1 ∧ Open format c) := by
  cases hd : format.drop c with
  | nil =>
    obtain rfl : c = format.length := le_antisymm hc (List.drop_eq_nil_iff.mp hd)
    obtain ⟨hw, hval⟩ := turn_end vsnprintf s
    exact ⟨hw, by simp [hval]⟩
  | cons b f =>
    have hlt := lt_of_drop hd
    by_cases hb : b ≠ ch '%' ∨ f = []
    · obtain ⟨hw, hval⟩ := turn_literal h0 vsnprintf s hd hb
      refine ⟨hw, ?_⟩
      intro s' c' h
      rw [hval] at h
      cases h
      exact ⟨by omega, .inl (by omega)⟩
    · simp only [not_or, ne_eq, not_not] at hb
      obtain ⟨rfl, hf⟩ := hb
      obtain ⟨hw, -, hnext⟩ := turn_conversion h0 vsnprintf s hd hf
      exact ⟨hw, hnext⟩

/-- The loop with pointers computes what the loop over the list does. -/
theorem formatLoop_val (fuel : ℕ) : ∀ {c : ℕ} (s : Builder), c ≤ format.length + 1 →
    format.length + 2 - c ≤ fuel → (formatLoop vsnprintf format fuel c s).val =
      if c ≤ format.length then Serialize.formatLoop vsnprintf 0 (format.drop c) s
      else .error .outOfBounds := by
  induction fuel with
  | zero => intro c s hc hfuel; omega
  | succ fuel ih =>
    intro c s hc hfuel
    by_cases hle : c ≤ format.length
    swap
    · rw [if_neg hle]
      simp only [formatLoop, Scan.val_bind, turn_behind (by omega : format.length < c)]
      rfl
    rw [if_pos hle]
    simp only [formatLoop, Scan.val_bind]
    have hbound := (turn_within vsnprintf h0 hle s).2
    cases hd : format.drop c with
    | nil =>
      obtain rfl : c = format.length := le_antisymm hle (List.drop_eq_nil_iff.mp hd)
      rw [(turn_end vsnprintf s).2]
      rfl
    | cons b f =>
      have hlt := lt_of_drop hd
      have hf : format.drop (c + 1) = f := drop_succ_of_drop hd
      by_cases hb : b ≠ ch '%' ∨ f = []
      · rw [(turn_literal h0 vsnprintf s hd hb).2]
        dsimp only
        rw [ih (s.literal b) (by omega) (by omega), if_pos (by omega), hf,
          Serialize.formatLoop.eq_4, if_pos hb]
      · rw [Serialize.formatLoop.eq_4, if_neg hb]
        simp only [not_or, ne_eq, not_not] at hb
        obtain ⟨rfl, hne⟩ := hb
        obtain ⟨-, hval, -⟩ := turn_conversion h0 vsnprintf s hd hne
        rw [hval] at hbound ⊢
        cases hconv : s.convert vsnprintf f with
        | error e => rfl
        | ok r =>
          rcases r with _ | ⟨s', k⟩
          · rfl
          · rw [hconv] at hbound
            by_cases hcur : s'.curarg = []
            · simp only [located, Except.map, Option.map, Turn.ofConvert, hcur, if_true]
              rfl
            · simp only [located, Except.map, Option.map, Turn.ofConvert, hcur, if_false] at hbound ⊢
              obtain ⟨hc', hle'⟩ := hbound _ _ rfl
              rw [ih _ (by omega) (by omega), formatLoop_skip f k, ← hf, List.length_drop,
                List.drop_drop]
              simp only [show k ≤ format.length - (c + 1) ↔ c + 1 + k ≤ format.length by omega]

/-- **The scanner with pointers computes the command that the model over lists does.** -/
theorem redisvFormatCommand_val (debug : Bool) (ap : List VaArg) :
    (redisvFormatCommand vsnprintf format debug ap).val =
      Serialize.redisvFormatCommand debug vsnprintf format ap := by
  simp only [redisvFormatCommand, Scan.val_bind, Serialize.redisvFormatCommand]
  rw [formatLoop_val h0 _ _ (by omega) (by omega), if_pos (by omega), List.drop_zero]
  rcases Serialize.formatLoop vsnprintf 0 format { ap } with e | _ | s <;> rfl

/-! ### The turns that are reached -/

/-- What is returned for the end of the loop. -/
def result (debug : Bool) : Except Fault (Option Builder) → Except Fault (ℤ × Option Bytes)
  | .error e => .error e
  | .ok none => .ok (REDIS_ERR, none)
  | .ok (some s) => s.finish.build debug

omit h0 in
theorem val_eq_result (debug : Bool) (ap : List VaArg) :
    (redisvFormatCommand vsnprintf format debug ap).val =
      result debug (formatLoop vsnprintf format (format.length + 2) 0 { ap }).val := by
  simp only [redisvFormatCommand, Scan.val_bind]
  rcases (formatLoop vsnprintf format (format.length + 2) 0 { ap }).val with e | _ | s <;> rfl

omit h0 in
theorem within_iff_loop {debug : Bool} {ap : List VaArg} {n : ℕ} :
    (redisvFormatCommand vsnprintf format debug ap).Within n ↔
      (formatLoop vsnprintf format (format.length + 2) 0 { ap }).Within n := by
  rw [redisvFormatCommand, Scan.within_bind]
  refine and_iff_left ?_
  rcases (formatLoop vsnprintf format (format.length + 2) 0 { ap }).val with e | _ | s <;>
    exact Scan.within_pure _ _

omit h0 in
theorem formatLoop_next {fuel c c' : ℕ} {s s' : Builder}
    (h : (turn vsnprintf format c s).val = .next c' s') :
    formatLoop vsnprintf format (fuel + 1) c s =
      turn vsnprintf format c s >>= fun _ => formatLoop vsnprintf format fuel c' s' :=
  Scan.bind_congr (by rw [h])

/-- A turn that is reached is at most one position behind the NUL, and what is left of the loop is a
part of the whole. -/
theorem Reached.loop {ap : List VaArg} {c : ℕ} {s : Builder}
    (h : Reached vsnprintf format ap c s) :
    c ≤ format.length + 1 ∧ ∃ fuel, format.length + 2 - c ≤ fuel ∧
      (formatLoop vsnprintf format (format.length + 2) 0 { ap }).val =
        (formatLoop vsnprintf format fuel c s).val ∧
      ∀ n, (formatLoop vsnprintf format (format.length + 2) 0 { ap }).Within n →
        (formatLoop vsnprintf format fuel c s).Within n := by
  induction h with
  | start => exact ⟨by omega, format.length + 2, by omega, rfl, fun _ h => h⟩
  | @next c c' s s' h ht ih =>
    obtain ⟨hc, fuel, hfuel, hval, hwithin⟩ := ih
    have hle : c ≤ format.length := by
      by_contra hlt
      rw [turn_behind (by omega)] at ht
      cases ht
    obtain ⟨hlt, hle'⟩ := (turn_within vsnprintf h0 hle s).2 _ _ ht
    obtain ⟨fuel, rfl⟩ : ∃ k, fuel = k + 1 := ⟨fuel - 1, by omega⟩
    rw [formatLoop_next ht] at hval hwithin
    exact ⟨by omega, fuel, by omega, hval, fun n hn => (Scan.within_bind.mp (hwithin n hn)).2⟩

/-- The loop reads nothing behind the NUL if no turn is reached there. -/
theorem formatLoop_within {ap : List VaArg}
    (hle : ∀ c s, Reached vsnprintf format ap c s → c ≤ format.length) (fuel : ℕ) :
    ∀ {c : ℕ} {s : Builder}, Reached vsnprintf format ap c s →
      (formatLoop vsnprintf format fuel c s).Within format.length := by
  induction fuel with
  | zero => intro c s _; exact Scan.within_pure _ _
  | succ fuel ih =>
    intro c s h
    rw [formatLoop]
    refine (turn_within vsnprintf h0 (hle c s h) s).1.bind ?_
    cases ht : (turn vsnprintf format c s).val with
    | next c' s' => exact ih (h.next ht)
    | done => exact Scan.within_pure _ _
    | err => exact Scan.within_pure _ _
    | fault e => exact Scan.within_pure _ _

theorem turn_done_iff {c : ℕ} {s : Builder} :
    (turn vsnprintf format c s).val = .done ↔ c = format.length := by
  constructor
  · intro h
    by_contra hne
    by_cases hlt : format.length < c
    · rw [turn_behind hlt] at h
      cases h
    · cases hd : format.drop c with
      | nil =>
        have := List.drop_eq_nil_iff.mp hd
        omega
      | cons b f =>
        by_cases hb : b ≠ ch '%' ∨ f = []
        · rw [(turn_literal h0 vsnprintf s hd hb).2] at h
          cases h
        · simp only [not_or, ne_eq, not_not] at hb
          obtain ⟨rfl, hf⟩ := hb
          rw [(turn_conversion h0 vsnprintf s hd hf).2.1] at h
          generalize located c (s.convert vsnprintf f) = r at h
          rcases r with e | _ | ⟨s', c'⟩
          · cases h
          · cases h
          · simp only [Turn.ofConvert] at h
            split_ifs at h
  · rintro rfl
    exact (turn_end vsnprintf s).2

/-- The loop ends well only at the NUL. -/
theorem reached_of_loop {ap : List VaArg} (fuel : ℕ) : ∀ {c : ℕ} {s s' : Builder},
    Reached vsnprintf format ap c s →
    (formatLoop vsnprintf format fuel c s).val = .ok (some s') →
      Reached vsnprintf format ap format.length s' := by
  induction fuel with
  | zero => intro c s s' _ h; cases h
  | succ fuel ih =>
    intro c s s' hr h
    simp only [formatLoop, Scan.val_bind] at h
    cases ht : (turn vsnprintf format c s).val with
    | next c' s'' =>
      rw [ht] at h
      exact ih (hr.next ht) h
    | done =>
      rw [ht] at h
      cases h
      exact (turn_done_iff h0).mp ht ▸ hr
    | err => rw [ht] at h; cases h
    | fault e => rw [ht] at h; cases h

end Run

/-! ### Open and incomplete conversions -/

theorem mem_skipFlag {b : UInt8} {flag : Char} {p : Bytes} (hb : b ≠ ch flag) (h : b ∈ p) :
    b ∈ Serialize.skipFlag flag p := by
  unfold Serialize.skipFlag
  split_ifs with hp
  · cases p with
    | nil => cases h
    | cons a p =>
      obtain rfl : a = ch flag := by simpa using hp
      exact (List.mem_cons.mp h).resolve_left hb
  · exact h

theorem mem_dropWhile {b : UInt8} {p : Bytes} (hb : isdigit b = false) (h : b ∈ p) :
    b ∈ p.dropWhile isdigit := by
  induction p with
  | nil => cases h
  | cons a p ih =>
    rw [List.dropWhile_cons]
    split_ifs with ha
    · refine ih ((List.mem_cons.mp h).resolve_left ?_)
      rintro rfl
      rw [hb] at ha
      cases ha
    · exact h

/-- A byte that is no flag, no digit and no point is not skipped. -/
theorem mem_skipWidth {b : UInt8} (hb : b ∉ bytes "#0- +." ∧ isdigit b = false) {f : Bytes}
    (h : b ∈ f) : b ∈ Serialize.skipWidth f := by
  have hset : bytes "#0- +." = [ch '#', ch '0', ch '-', ch ' ', ch '+', ch '.'] := rfl
  rw [hset] at hb
  simp only [List.mem_cons, List.not_mem_nil, or_false, not_or] at hb
  obtain ⟨⟨h1, h2, h3, h4, h5, h6⟩, hdig⟩ := hb
  have hp := mem_dropWhile hdig <| mem_skipFlag h5 <| mem_skipFlag h4 <| mem_skipFlag h3 <|
    mem_skipFlag h2 <| mem_skipFlag h1 h
  unfold Serialize.skipWidth
  dsimp only
  split_ifs with hdot
  · refine mem_dropWhile hdig ?_
    cases hq : (Serialize.skipFlag '+' (Serialize.skipFlag ' ' (Serialize.skipFlag '-'
      (Serialize.skipFlag '0' (Serialize.skipFlag '#' f))))).dropWhile isdigit with
    | nil => rw [hq] at hp; cases hp
    | cons a p =>
      rw [hq] at hp hdot
      obtain rfl : a = ch '.' := by simpa using hdot
      exact (List.mem_cons.mp hp).resolve_left h6
  · exact hp

/-- The rest of an incomplete conversion behind its flags, its width and its precision. -/
def modifiers : List Bytes := [[], bytes "h", bytes "hh", bytes "l", bytes "ll"]

/-- **An incomplete conversion**: something follows the percent sign, but no letter. A percent sign
that is the last byte stands for itself. -/
def Incomplete (format : Bytes) (c : ℕ) : Prop :=
  ∃ f, format.drop c = ch '%' :: f ∧ f ≠ [] ∧ Serialize.skipWidth f ∈ modifiers

theorem incomplete_of_open {format : Bytes} {c : ℕ} (h : Open format c) : Incomplete format c := by
  obtain ⟨f, hd, hf, hw⟩ := h
  exact ⟨f, hd, hf, by rw [hw]; exact List.mem_cons_self⟩

/-- An incomplete conversion is left to `vsnprintf`. -/
theorem convert_of_incomplete (vsnprintf : Bytes → VaArg → Option Bytes) (s : Builder) {f : Bytes}
    (h : Serialize.skipWidth f ∈ modifiers) :
    s.convert vsnprintf f = s.printf vsnprintf f := by
  have hkept : ∀ b ∈ bytes "sb%", b ∉ bytes "#0- +." ∧ isdigit b = false := by
    decide +kernel
  have hother : ∀ p ∈ modifiers, ∀ b ∈ bytes "sb%", b ∉ p := by decide +kernel
  have hno : ∀ b ∈ bytes "sb%", f.head? ≠ some b := fun b hb hf =>
    hother _ h b hb (mem_skipWidth (hkept b hb) (List.mem_of_mem_head? hf))
  rw [Builder.convert, if_neg (hno _ (by decide)), if_neg (hno _ (by decide)),
    if_neg (hno _ (by decide))]

/-- No letter is found behind a size modifier at the end. -/
theorem fmtValid_modifier {p : Bytes} (h : p ∈ modifiers) (hp : p ≠ []) :
    Serialize.fmtValid p = none := by
  revert hp
  revert p
  decide

/-! ### Staying inside -/

section Property
variable (debug : Bool) (vsnprintf : Bytes → VaArg → Option Bytes) (format : Bytes)

/-- **The scanner stays inside its format**: it reads no position behind the NUL, its loop ends at
the NUL, an incomplete conversion that it reaches is rejected, and `*cmd` is unchanged when
`REDIS_ERR` is returned. -/
structure StaysInside (ap : List VaArg) : Prop where
  within : (redisvFormatCommand vsnprintf format debug ap).Within format.length
  ends : ∀ c s, Reached vsnprintf format ap c s →
    ((turn vsnprintf format c s).val = .done ↔ c = format.length)
  rejected : ∀ c s, Reached vsnprintf format ap c s → Incomplete format c →
    (redisvFormatCommand vsnprintf format debug ap).val = .ok (REDIS_ERR, none)
  unchanged : ∀ cmd, (redisvFormatCommand vsnprintf format debug ap).val = .ok (REDIS_ERR, cmd) →
    cmd = none

/-- The length that `redisvFormatCommand` returns for a command. -/
def returned (s : Builder) : ℕ := announced s.finish.totlen s.finish.args

/-- **A turn that the code handles.** -/
structure Fine (c : ℕ) (s : Builder) : Prop where
  /-- An open conversion comes first in its argument, and it is too long for `_format`, or nothing
  is printed for it. -/
  opened : Open format c → s.curarg = [] ∧
    (14 ≤ format.length + 1 - c ∨ ∀ a ∈ s.ap.head?, vsnprintf (format.drop c) a = some [])
  /-- The length of a command that is built is not -1 as an `int`. -/
  counted : c = format.length → 2 ^ 63 ≤ returned s ∨
    (debug ∧ (commandBytes s.finish.args).length ≠ returned s) ∨ toInt32 (returned s) ≠ REDIS_ERR

end Property

section Iff
variable {debug : Bool} {vsnprintf : Bytes → VaArg → Option Bytes} {format : Bytes}

theorem build_ne_none {s : Builder} {v : ℤ} : s.build debug ≠ .ok (v, none) := by
  intro h
  unfold Builder.build at h
  dsimp only at h
  split_ifs at h
  cases h

/-- What `vsnprintf` leaves in the argument. -/
def printed (text : Bytes) : Bytes := (text.take (Builder.BUF - 1) ++ [0]).take text.length

theorem printed_eq_nil {text : Bytes} : printed text = [] ↔ text = [] := by
  unfold printed
  rw [List.take_eq_nil_iff]
  simp

variable (h0 : 0 ∉ format)
include h0

variable (vsnprintf) in
/-- **The turn at an open conversion**, with the argument that it takes. -/
theorem turn_open {c : ℕ} (hopen : Open format c) (s : Builder) :
    (turn vsnprintf format c s).val = .fault .undefined ∨ ∃ a ap, s.ap = a :: ap ∧
      (turn vsnprintf format c s).val =
        if format.length + 1 - c < 14 then
          match vsnprintf (format.drop c) a with
          | none => .fault .lengthError
          | some text =>
            if Builder.BUF < text.length then .fault .outOfBounds
            else if s.curarg ++ printed text = [] then .err
            else .next (format.length + 1)
              { s with curarg := s.curarg ++ printed text, ap := ap, touched := true }
        else if s.curarg = [] then .err
        else .next (c + 2) { s with ap := ap, touched := true } := by
  obtain ⟨f, hd, hf, hw⟩ := hopen
  have hlt := lt_of_drop hd
  have hfl : f.length = format.length - (c + 1) := by
    rw [← drop_succ_of_drop hd, List.length_drop]
  rw [(turn_conversion h0 vsnprintf s hd hf).2.1,
    convert_of_incomplete vsnprintf s (by rw [hw]; exact List.mem_cons_self), Builder.printf, hw,
    show Serialize.fmtValid [] = some (.int, []) from rfl]
  cases hap : s.ap with
  | nil => exact .inl rfl
  | cons a ap =>
    by_cases htype : ¬a.HasType .int
    · dsimp only
      rw [if_pos htype]
      exact .inl rfl
    refine .inr ⟨a, ap, rfl, ?_⟩
    have hl : f.length - ([] : Bytes).length + 2 = format.length + 1 - c := by
      rw [List.length_nil]
      omega
    dsimp only
    rw [if_neg htype, hl, hd]
    by_cases hshort : format.length + 1 - c < 14
    · rw [if_pos hshort, if_pos hshort, List.take_of_length_le (by omega)]
      cases vsnprintf (ch '%' :: f) a with
      | none => rfl
      | some text =>
        dsimp only
        by_cases hlong : text.length > Builder.BUF
        · rw [if_pos hlong, if_pos hlong]
          rfl
        · rw [if_neg hlong, if_neg hlong]
          show Turn.ofConvert (.ok (some (_, c + 1 + (format.length + 1 - c - 1)))) = _
          rw [show c + 1 + (format.length + 1 - c - 1) = format.length + 1 by omega]
          rfl
    · rw [if_neg hshort, if_neg hshort]
      rfl

variable (vsnprintf) in
omit h0 in
/-- What follows an open conversion is all literal. -/
theorem formatLoop_plain {f : Bytes} (h : ch '%' ∉ f) (s : Builder) :
    ∃ s', Serialize.formatLoop vsnprintf 0 f s = .ok (some s') := by
  induction f generalizing s with
  | nil => exact ⟨s, rfl⟩
  | cons b f ih =>
    rw [List.mem_cons, not_or] at h
    rw [Serialize.formatLoop.eq_4, if_pos (.inl (Ne.symm h.1))]
    exact ih h.2 _

omit h0 in
theorem percent_notMem_of_open {c : ℕ} (h : Open format c) : ch '%' ∉ format.drop (c + 1) := by
  obtain ⟨f, hd, -, hw⟩ := h
  rw [drop_succ_of_drop hd]
  intro hmem
  have := mem_skipWidth (by decide) hmem
  rw [hw] at this
  cases this

/-- What is returned after a turn that ends in the way given. -/
def after (debug : Bool) (vsnprintf : Bytes → VaArg → Option Bytes) (format : Bytes)
    (s : Builder) : Turn → Except Fault (ℤ × Option Bytes)
  | .next c s => result debug
    (if c ≤ format.length then Serialize.formatLoop vsnprintf 0 (format.drop c) s
      else .error .outOfBounds)
  | .done => s.finish.build debug
  | .err => .ok (REDIS_ERR, none)
  | .fault e => .error e

variable (debug) in
theorem val_of_reached {ap : List VaArg} {c : ℕ} {s : Builder} {t : Turn}
    (h : Reached vsnprintf format ap c s) (ht : (turn vsnprintf format c s).val = t) :
    (redisvFormatCommand vsnprintf format debug ap).val = after debug vsnprintf format s t := by
  obtain ⟨hc, fuel, hfuel, hval, -⟩ := Reached.loop h0 h
  obtain ⟨fuel, rfl⟩ : ∃ k, fuel = k + 1 := ⟨fuel - 1, by omega⟩
  rw [val_eq_result]
  cases t with
  | next c' s' =>
    obtain ⟨hc', fuel', hfuel', hval', -⟩ := Reached.loop h0 (h.next ht)
    rw [hval', formatLoop_val h0 _ _ hc' hfuel', after]
  | done => rw [hval, formatLoop, Scan.val_bind, ht]; rfl
  | err => rw [hval, formatLoop, Scan.val_bind, ht]; rfl
  | fault e => rw [hval, formatLoop, Scan.val_bind, ht]; rfl

/-- An open conversion that is handled is rejected. -/
theorem Fine.turn_eq {ap : List VaArg} {c : ℕ} {s : Builder} (hfine : Fine debug vsnprintf format c s)
    (hargs : (redisvFormatCommand vsnprintf format debug ap).val ≠ .error .undefined)
    (h : Reached vsnprintf format ap c s) (hopen : Open format c) :
    (turn vsnprintf format c s).val = .err := by
  obtain ⟨hcur, hshort⟩ := hfine.opened hopen
  rcases turn_open vsnprintf h0 hopen s with hundef | ⟨a, ap', hap, hturn⟩
  · exact absurd (val_of_reached debug h0 h hundef) hargs
  rw [hturn]
  by_cases hlt : format.length + 1 - c < 14
  · have htext := hshort.resolve_left (by omega) a (by rw [hap]; rfl)
    rw [if_pos hlt, htext, hcur]
    rfl
  · rw [if_neg hlt, if_pos hcur]

/-- An incomplete conversion with a size modifier is rejected. -/
theorem turn_modifier {c : ℕ} (h : Incomplete format c) (hopen : ¬Open format c) (s : Builder) :
    (turn vsnprintf format c s).val = .err := by
  obtain ⟨f, hd, hf, hw⟩ := h
  have hne : Serialize.skipWidth f ≠ [] := fun hnil => hopen ⟨f, hd, hf, hnil⟩
  rw [(turn_conversion h0 vsnprintf s hd hf).2.1, convert_of_incomplete vsnprintf s hw, Builder.printf,
    fmtValid_modifier hw hne]
  rfl

/-- The turns that are reached are not behind the NUL if the code handles them. -/
theorem reached_le {ap : List VaArg}
    (hargs : (redisvFormatCommand vsnprintf format debug ap).val ≠ .error .undefined)
    (hfine : ∀ c s, Reached vsnprintf format ap c s → Fine debug vsnprintf format c s) {c : ℕ}
    {s : Builder} (h : Reached vsnprintf format ap c s) : c ≤ format.length := by
  induction h with
  | start => exact Nat.zero_le _
  | @next c c' s s' h ht ih =>
    rcases ((turn_within vsnprintf h0 ih s).2 _ _ ht).2 with hle | ⟨-, hopen⟩
    · exact hle
    · have := (hfine c s h).turn_eq h0 hargs h hopen
      rw [ht] at this
      cases this

/-- An open conversion that is rejected is handled. -/
theorem opened_of_inside {ap : List VaArg}
    (hargs : (redisvFormatCommand vsnprintf format debug ap).val ≠ .error .undefined)
    (hin : StaysInside debug vsnprintf format ap) {c : ℕ} {s : Builder}
    (h : Reached vsnprintf format ap c s) (hopen : Open format c) : s.curarg = [] ∧
      (14 ≤ format.length + 1 - c ∨
        ∀ a ∈ s.ap.head?, vsnprintf (format.drop c) a = some []) := by
  have herr := hin.rejected c s h (incomplete_of_open hopen)
  rcases turn_open vsnprintf h0 hopen s with hundef | ⟨a, ap', hap, hturn⟩
  · exact absurd (val_of_reached debug h0 h hundef) hargs
  have hval := val_of_reached debug h0 h hturn
  rw [herr] at hval
  by_cases hshort : format.length + 1 - c < 14
  · rw [if_pos hshort] at hturn hval
    cases htext : vsnprintf (format.drop c) a with
    | none =>
      rw [htext] at hval
      cases hval
    | some text =>
      rw [htext] at hturn hval
      dsimp only at hturn hval
      by_cases hlong : Builder.BUF < text.length
      · rw [if_pos hlong] at hval
        cases hval
      rw [if_neg hlong] at hturn hval
      by_cases hnil : s.curarg ++ printed text = []
      · obtain ⟨hcur, hprinted⟩ := List.append_eq_nil_iff.mp hnil
        refine ⟨hcur, .inr fun a' ha' => ?_⟩
        obtain rfl : a = a' := by simpa [hap] using ha'
        rw [htext, printed_eq_nil.mp hprinted]
      · -- the next turn is behind the NUL
        rw [if_neg hnil, after, if_neg (by omega)] at hval
        cases hval
  · rw [if_neg hshort] at hturn hval
    by_cases hcur : s.curarg = []
    · exact ⟨hcur, .inl (by omega)⟩
    · -- the rest of the conversion is taken for text, and a command is built
      obtain ⟨s', hs'⟩ := formatLoop_plain vsnprintf
        (f := format.drop (c + 2)) (s := { s with ap := ap', touched := true }) (by
          intro hmem
          refine percent_notMem_of_open hopen (List.mem_of_mem_drop (i := 1) ?_)
          rwa [List.drop_drop])
      rw [if_neg hcur, after, if_pos (by omega), hs'] at hval
      exact absurd hval.symm build_ne_none

/-- **The scanner stays inside its format exactly if it handles every turn that it reaches.** -/
theorem inside_iff (ap : List VaArg)
    (hargs : (redisvFormatCommand vsnprintf format debug ap).val ≠ .error .undefined) :
    StaysInside debug vsnprintf format ap ↔
      ∀ c s, Reached vsnprintf format ap c s → Fine debug vsnprintf format c s := by
  constructor
  · intro hin c s h
    refine ⟨fun hopen => opened_of_inside h0 hargs hin h hopen, fun hc => ?_⟩
    have hval := val_of_reached debug h0 h ((turn_done_iff h0).mpr hc)
    by_contra hcount
    simp only [not_or, not_not, not_le] at hcount
    obtain ⟨hlt, hright, hneg⟩ := hcount
    have hbuilt : s.finish.build debug = .ok (REDIS_ERR, some (commandBytes s.finish.args)) := by
      unfold returned at hlt hright hneg
      unfold Builder.build
      dsimp only
      rw [if_neg (not_le.mpr hlt), if_neg hright, hneg]
    exact absurd (hin.unchanged _ (hval.trans hbuilt)) (by simp)
  · intro hfine
    have hle : ∀ c s, Reached vsnprintf format ap c s → c ≤ format.length :=
      fun c s h => reached_le h0 hargs hfine h
    refine ⟨within_iff_loop.mpr (formatLoop_within h0 hle _ .start),
      fun c s _ => turn_done_iff h0, fun c s h hinc => ?_, fun cmd hcmd => ?_⟩
    · by_cases hopen : Open format c
      · exact val_of_reached debug h0 h ((hfine c s h).turn_eq h0 hargs h hopen)
      · exact val_of_reached debug h0 h (turn_modifier h0 hinc hopen s)
    · rw [val_eq_result] at hcmd
      generalize hend : (formatLoop vsnprintf format (format.length + 2) 0 { ap }).val = r at hcmd
      rcases r with e | _ | s
      · cases hcmd
      · cases hcmd
        rfl
      · -- a command is built at the NUL, and its length is counted rightly
        have hcount := (hfine _ s (reached_of_loop h0 _ .start hend)).counted rfl
        simp only [result, Builder.build] at hcmd
        split_ifs at hcmd with hlt hright
        simp only [Except.ok.injEq, Prod.mk.injEq] at hcmd
        rcases hcount with hcount | hcount | hcount
        · exact absurd hcount hlt
        · exact absurd hcount hright
        · exact absurd hcmd.1 hcount

end Iff

/-- `vsnprintf` for the conversion `%d`. It returns -1 for a format that ends inside a conversion. -/
def printInt (fmt : Bytes) : VaArg → Option Bytes
  | .int v => if fmt = bytes "%d" then some (decimal v) else none
  | _ => none

theorem inside_iff_int :
    0 ∉ bytes "set a %d" ∧
    (StaysInside true printInt (bytes "set a %d") [.int 42] ↔
      ∀ c s, Reached printInt (bytes "set a %d") [.int 42] c s →
        Fine true printInt (bytes "set a %d") c s) :=
  ⟨by decide, inside_iff (by decide) [.int 42] (by decide +kernel)⟩

/-- `%5`: the width is not followed by a letter, and the code throws a `std::length_error`. -/
theorem trailing_width_not_rejected :
    0 ∉ bytes "%5" ∧
    (redisvFormatCommand printInt (bytes "%5") true [.int 1]).val = .error .lengthError ∧
    ¬StaysInside true printInt (bytes "%5") [.int 1] := by
  have hval : (redisvFormatCommand printInt (bytes "%5") true [.int 1]).val =
      .error .lengthError := by decide +kernel
  refine ⟨by decide, hval, fun h => ?_⟩
  have herr := h.rejected 0 _ .start ⟨bytes "5", rfl, by decide, by decide⟩
  rw [hval] at herr
  cases herr

end Pink.Redis.Inside
