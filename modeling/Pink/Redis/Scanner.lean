import Pink.Lib.Reads
import Pink.Redis.Serialize

/-! # The scanner of a format

The loop of `redisvFormatCommand` with its pointers: `c` and `_p` are positions of the format, and
every read through them is recorded. The terminating NUL is at position `format.length`; what is
behind it is not the format's, and a loop that gets there is outside of all bounds.

Each part of a turn reads nothing behind the NUL and computes what its counterpart of `Serialize`,
which cuts the format as a list, computes: the skips (`Moves`), the letter of the conversion
(`Finds`), the conversion and the turn. -/

namespace Pink.Redis.Scanner

open Pink.Redis.Wire Pink.Redis.Format Pink.Redis.Serialize Pink.Lib.Reads

/-! ### The model -/

/-- The byte at a position, the NUL at the end. -/
def read (format : Bytes) (p : ℕ) : Scan UInt8 := ⟨(format.drop p).headD 0, [p]⟩

/-- `strchr(set, b) != NULL` -/
def strchr (set : String) (b : UInt8) : Bool := b = 0 ∨ b ∈ bytes set

/-- `if (*_p != '\0' && *_p == flag) _p++;` -/
def skipFlag (format : Bytes) (flag : Char) (p : ℕ) : Scan ℕ := do
  let b ← read format p
  return if b ≠ 0 ∧ b = ch flag then p + 1 else p

/-- `while (*_p != '\0' && isdigit(*_p)) _p++;`, with as many turns as there are bytes. -/
def skipDigits (format : Bytes) : ℕ → ℕ → Scan ℕ
  | 0, p => do
    let _ ← read format p
    return p
  | fuel + 1, p => do
    let b ← read format p
    if b ≠ 0 ∧ isdigit b then skipDigits format fuel (p + 1) else return p

/-- Precision. -/
def skipPrecision (format : Bytes) (p : ℕ) : Scan ℕ := do
  let b ← read format p
  if b = ch '.' then skipDigits format (format.length - (p + 1)) (p + 1) else return p

/-- Flags, field width and precision. -/
def skipWidth (format : Bytes) (p : ℕ) : Scan ℕ := do
  let p ← skipFlag format '#' p
  let p ← skipFlag format '0' p
  let p ← skipFlag format '-' p
  let p ← skipFlag format ' ' p
  let p ← skipFlag format '+' p
  let p ← skipDigits format (format.length - p) p
  skipPrecision format p

/-- `if (*_p != '\0' && strchr(intfmts, *_p) != NULL)` behind a size modifier. -/
def sized (format : Bytes) (type : VaType) (p : ℕ) : Scan (Option (VaType × ℕ)) := do
  let b ← read format p
  return if b ≠ 0 ∧ strchr "diouxX" b then some (type, p) else none

/-- The conversion at `_p`: the type of its argument, and `_p` at its last letter. -/
def fmtValid (format : Bytes) (p : ℕ) : Scan (Option (VaType × ℕ)) := do
  let b ← read format p
  if strchr "diouxX" b then return some (.int, p)
  else if strchr "eEfFgGaA" b then return some (.double, p)
  else if b = ch 'h' then
    let b' ← read format (p + 1)
    if b' = ch 'h' then sized format .int (p + 2) else sized format .int (p + 1)
  else if b = ch 'l' then
    let b' ← read format (p + 1)
    if b' = ch 'l' then sized format .longLong (p + 2) else sized format .long (p + 1)
  else return none

/-- `memcpy(_format, c, l)`, as a string. -/
def copy (format : Bytes) (c l : ℕ) : Scan Bytes := ⟨(format.drop c).take l, List.range' c l⟩

section Model
variable (vsnprintf : Bytes → VaArg → Option Bytes) (format : Bytes)

/-- A conversion that is left to `vsnprintf`: the builder behind it and where `c` is then; `none` is
`REDIS_ERR`. -/
def printf (s : Builder) (c : ℕ) : Scan (Except Fault (Option (Builder × ℕ))) := do
  let p ← skipWidth format (c + 1)
  match ← fmtValid format p, s.ap with
  | none, _ => return .ok none
  | some _, [] => return .error .undefined
  | some (type, p), a :: ap =>
    if ¬a.HasType type then return .error .undefined
    else
      let l := p + 1 - c
      if l < 16 - 2 then
        let fmt ← copy format c l
        match vsnprintf fmt a with
        | none => return .error .lengthError
        | some text =>
          if text.length > Builder.BUF then return .error .outOfBounds
          else
            -- `c = _p - 1`, and two increments
            return .ok (some ({ s with
              curarg := s.curarg ++ (text.take (Builder.BUF - 1) ++ [0]).take text.length
              ap := ap }, p + 1))
      else return .ok (some ({ s with ap := ap }, c + 2))

/-- `switch (c[1])`. The first three cases do not read any further. -/
def convert (s : Builder) (c : ℕ) : Scan (Except Fault (Option (Builder × ℕ))) := do
  let b ← read format (c + 1)
  if b = ch 's' ∨ b = ch 'b' ∨ b = ch '%' then
    return (s.convert vsnprintf [b]).map fun r => r.map fun (s, k) => (s, c + 1 + k)
  else printf vsnprintf format s c

/-- How a turn of the loop ends: with the next turn, at the NUL, with `return REDIS_ERR`, or not at
all. -/
inductive Turn
  | next (c : ℕ) (s : Builder)
  | done
  | err
  | fault (e : Fault)

/-- One turn of the loop. -/
def turn (c : ℕ) (s : Builder) : Scan Turn := do
  let b ← read format c
  if format.length < c then return .fault .outOfBounds
  else if b = 0 then return .done
  else if b ≠ ch '%' then return .next (c + 1) (s.literal b)
  else
    let b' ← read format (c + 1)
    if b' = 0 then return .next (c + 1) (s.literal b)
    else
      match ← convert vsnprintf format s c with
      | .error e => return .fault e
      | .ok none => return .err
      | .ok (some (s, c)) =>
        return if s.curarg = [] then .err else .next c { s with touched := true }

/-- The loop of `redisvFormatCommand`. Every turn moves `c`, so there are at most as many as there
are positions. -/
def formatLoop : ℕ → ℕ → Builder → Scan (Except Fault (Option Builder))
  | 0, _, _ => return .error .outOfBounds
  | fuel + 1, c, s => do
    match ← turn vsnprintf format c s with
    | .next c s => formatLoop fuel c s
    | .done => return .ok (some s)
    | .err => return .ok none
    | .fault e => return .error e

def redisvFormatCommand (debug : Bool) (ap : List VaArg) :
    Scan (Except Fault (ℤ × Option Bytes)) := do
  match ← formatLoop vsnprintf format (format.length + 2) 0 { ap } with
  | .error e => return .error e
  | .ok none => return .ok (REDIS_ERR, none)
  | .ok (some s) => return s.finish.build debug

/-- Where the loop gets: `c` and the variables at the head of a turn. -/
inductive Reached (ap : List VaArg) : ℕ → Builder → Prop
  | start : Reached ap 0 { ap }
  | next {c c' : ℕ} {s s' : Builder} (h : Reached ap c s)
      (ht : (turn vsnprintf format c s).val = .next c' s') : Reached ap c' s'

end Model

/-! ### Moving a pointer -/

section Spec
variable {format : Bytes}

theorem read_within {p n : ℕ} (h : p ≤ n) : (read format p).Within n := by
  intro i hi
  obtain rfl : i = p := List.mem_singleton.mp hi
  exact h

theorem read_val_of_drop {p : ℕ} {b : UInt8} {f : Bytes} (h : format.drop p = b :: f) :
    (read format p).val = b := by
  simp [read, h]

theorem lt_of_drop {p : ℕ} {b : UInt8} {f : Bytes} (h : format.drop p = b :: f) :
    p < format.length := by
  have := congrArg List.length h
  rw [List.length_drop, List.length_cons] at this
  omega

theorem drop_succ_of_drop {p : ℕ} {b : UInt8} {f : Bytes} (h : format.drop p = b :: f) :
    format.drop (p + 1) = f := by
  rw [← List.tail_drop, h, List.tail_cons]

theorem ne_zero_of_drop (h0 : 0 ∉ format) {p : ℕ} {b : UInt8} {f : Bytes}
    (h : format.drop p = b :: f) : b ≠ 0 := by
  rintro rfl
  exact h0 (List.mem_of_mem_drop (h ▸ List.mem_cons_self))

/-- `m` moves a pointer into the format forward, as `g` cuts the rest of the format. -/
def Moves (format : Bytes) (g : Bytes → Bytes) (m : ℕ → Scan ℕ) : Prop :=
  ∀ p ≤ format.length, (m p).Within format.length ∧ p ≤ (m p).val ∧
    (m p).val ≤ format.length ∧ format.drop (m p).val = g (format.drop p)

theorem Moves.bind {g g' : Bytes → Bytes} {m m' : ℕ → Scan ℕ} (h : Moves format g m)
    (h' : Moves format g' m') : Moves format (fun f => g' (g f)) fun p => m p >>= m' := by
  intro p hp
  obtain ⟨hw, hle, hlen, hdrop⟩ := h p hp
  obtain ⟨hw', hle', hlen', hdrop'⟩ := h' _ hlen
  exact ⟨hw.bind hw', hle.trans hle', hlen', by rw [Scan.val_bind, hdrop', hdrop]⟩

variable (h0 : 0 ∉ format)
include h0

theorem skipFlag_moves (flag : Char) :
    Moves format (Serialize.skipFlag flag) (skipFlag format flag) := by
  intro p hp
  refine ⟨(read_within hp).bind (Scan.within_pure _ _), ?_⟩
  simp only [skipFlag, Scan.val_bind, Scan.val_pure, Serialize.skipFlag]
  cases hd : format.drop p with
  | nil => simp [read, hd, hp]
  | cons b f =>
    have hb := ne_zero_of_drop h0 hd
    have hlt := lt_of_drop hd
    simp only [read_val_of_drop hd, hb, ne_eq, not_false_eq_true, true_and, List.head?_cons,
      Option.some.injEq]
    split_ifs
    · exact ⟨by omega, by omega, by rw [drop_succ_of_drop hd, List.tail_cons]⟩
    · exact ⟨le_rfl, hp, hd⟩

theorem skipDigits_moves (fuel : ℕ) : ∀ p ≤ format.length, format.length - p ≤ fuel →
    (skipDigits format fuel p).Within format.length ∧ p ≤ (skipDigits format fuel p).val ∧
      (skipDigits format fuel p).val ≤ format.length ∧
      format.drop (skipDigits format fuel p).val = (format.drop p).dropWhile isdigit := by
  induction fuel with
  | zero =>
    intro p hp hf
    refine ⟨(read_within hp).bind (Scan.within_pure _ _), le_rfl, hp, ?_⟩
    show format.drop p = _
    rw [List.drop_eq_nil_of_le (by omega), List.dropWhile_nil]
  | succ fuel ih =>
    intro p hp hf
    cases hd : format.drop p with
    | nil =>
      have hval : (skipDigits format (fuel + 1) p).val = p := by
        simp [skipDigits, read, hd]
      refine ⟨(read_within hp).bind ?_, hval.ge, hval.trans_le hp, ?_⟩
      · rw [if_neg (by simp [read, hd])]
        exact Scan.within_pure _ _
      · rw [hval, hd, List.dropWhile_nil]
    | cons b f =>
      have hlt := lt_of_drop hd
      have hread := read_val_of_drop hd
      have hb := ne_zero_of_drop h0 hd
      by_cases hdig : isdigit b
      · obtain ⟨hw, hle, hlen, hdrop⟩ := ih (p + 1) (by omega) (by omega)
        have heq : skipDigits format (fuel + 1) p =
            read format p >>= fun _ => skipDigits format fuel (p + 1) :=
          Scan.bind_congr (if_pos (by rw [hread]; exact ⟨hb, hdig⟩))
        rw [heq]
        refine ⟨(read_within hp).bind hw, ?_, hlen, ?_⟩
        · rw [Scan.val_bind]; omega
        · rw [Scan.val_bind, hdrop, drop_succ_of_drop hd, List.dropWhile_cons_of_pos hdig]
      · have heq : skipDigits format (fuel + 1) p = read format p >>= fun _ => pure p :=
          Scan.bind_congr (if_neg (by rw [hread]; exact fun h => hdig h.2))
        rw [heq]
        refine ⟨(read_within hp).bind (Scan.within_pure _ _), le_rfl, hp, ?_⟩
        rw [Scan.val_bind, Scan.val_pure, hd, List.dropWhile_cons_of_neg hdig]

theorem skipPrecision_moves : Moves format
    (fun f => if f.head? = some (ch '.') then f.tail.dropWhile isdigit else f)
    (skipPrecision format) := by
  intro p hp
  cases hd : format.drop p with
  | nil =>
    have hb : ¬(read format p).val = ch '.' := by simp only [read, hd]; decide
    refine ⟨(read_within hp).bind ?_, ?_⟩
    · rw [if_neg hb]; exact Scan.within_pure _ _
    · simp [skipPrecision, hb, hd, hp]
  | cons b f =>
    have hread := read_val_of_drop hd
    have hlt := lt_of_drop hd
    by_cases hdot : b = ch '.'
    · obtain ⟨hw, hle, hlen, hdrop⟩ := skipDigits_moves h0 (format.length - (p + 1)) (p + 1)
        (by omega) le_rfl
      have hval : (skipPrecision format p).val =
          (skipDigits format (format.length - (p + 1)) (p + 1)).val := by
        simp [skipPrecision, hread, hdot]
      refine ⟨(read_within hp).bind ?_, by omega, by omega, ?_⟩
      · rw [if_pos (hread.trans hdot)]; exact hw
      · rw [hval, hdrop, drop_succ_of_drop hd]
        simp [hdot]
    · have hval : (skipPrecision format p).val = p := by simp [skipPrecision, hread, hdot]
      refine ⟨(read_within hp).bind ?_, hval.ge, by omega, ?_⟩
      · rw [if_neg (by rwa [hread])]; exact Scan.within_pure _ _
      · rw [hval, hd]
        simp [hdot]

theorem skipWidth_moves : Moves format Serialize.skipWidth (skipWidth format) := by
  have hdigits : Moves format (List.dropWhile isdigit)
      (fun p => skipDigits format (format.length - p) p) :=
    fun p hp => skipDigits_moves h0 _ p hp le_rfl
  exact (skipFlag_moves h0 '#').bind <| (skipFlag_moves h0 '0').bind <|
    (skipFlag_moves h0 '-').bind <| (skipFlag_moves h0 ' ').bind <|
    (skipFlag_moves h0 '+').bind <| hdigits.bind <| skipPrecision_moves h0

/-! ### Conversions -/

omit h0 in
theorem strchr_cons {set : String} {b : UInt8} (hb : b ≠ 0) (f : Bytes) :
    strchr set b = Serialize.strchr set (b :: f) := by
  simp [strchr, Serialize.strchr, hb]

/-- A letter behind a size modifier. -/
theorem sized_spec {p : ℕ} (hp : p ≤ format.length) (type : VaType) :
    (sized format type p).Within format.length ∧
      (sized format type p).val =
        if isIntfmt (format.drop p) then some (type, p) else none := by
  refine ⟨(read_within hp).bind (Scan.within_pure _ _), ?_⟩
  simp only [sized, Scan.val_bind, Scan.val_pure]
  cases hd : format.drop p with
  | nil => simp [read, hd, isIntfmt]
  | cons b f =>
    have hb := ne_zero_of_drop h0 hd
    simp [read_val_of_drop hd, hb, isIntfmt, strchr_cons hb f]

/-- What `fmtValid` finds at a position, against what it finds in the rest of the format. -/
inductive Finds (format : Bytes) (p : ℕ) : Option (VaType × ℕ) → Option (VaType × Bytes) → Prop
  | none : Finds format p none none
  | some {type : VaType} {q : ℕ} (hle : p ≤ q) (hlen : q ≤ format.length)
      (hend : q = format.length → p = format.length) :
      Finds format p (some (type, q)) (some (type, format.drop q))

omit h0 in
theorem finds_sized {p n : ℕ} (type : VaType) : Finds format p
    (if isIntfmt (format.drop (p + n)) then some (type, p + n) else none)
    (if isIntfmt (format.drop (p + n)) then some (type, format.drop (p + n)) else none) := by
  by_cases h : isIntfmt (format.drop (p + n))
  · rw [if_pos h, if_pos h]
    have hne : format.drop (p + n) ≠ [] := by
      intro hnil
      simp [hnil, isIntfmt] at h
    have hlt : p + n < format.length := by
      by_contra hle
      exact hne (List.drop_eq_nil_of_le (by omega))
    exact .some (by omega) (by omega) (by omega)
  · rw [if_neg h, if_neg h]
    exact .none

/-- One size modifier or two. -/
theorem modifier_spec {p : ℕ} {x : UInt8} {f : Bytes} (hd : format.drop p = x :: f)
    (one two : VaType) :
    let m : Scan (Option (VaType × ℕ)) := read format (p + 1) >>= fun b =>
      if b = x then sized format two (p + 2) else sized format one (p + 1)
    m.Within format.length ∧ Finds format p m.val
      (if [x, x] <+: x :: f then
        if isIntfmt ((x :: f).drop 2) then some (two, (x :: f).drop 2) else none
      else if isIntfmt ((x :: f).drop 1) then some (one, (x :: f).drop 1) else none) := by
  intro m
  have hlt := lt_of_drop hd
  have hx := ne_zero_of_drop h0 hd
  have hf : format.drop (p + 1) = f := drop_succ_of_drop hd
  have hrest (n : ℕ) : (x :: f).drop n = format.drop (p + n) := by rw [← hd, List.drop_drop]
  rw [hrest, hrest]
  by_cases htwo : [x, x] <+: x :: f
  · obtain ⟨f', rfl⟩ : ∃ f', f = x :: f' := by
      obtain ⟨f', hf'⟩ := htwo
      exact ⟨f', by simpa using hf'.symm⟩
    have hlt' := lt_of_drop hf
    obtain ⟨hw, hval⟩ := sized_spec h0 (p := p + 2) (by omega) two
    have hm : m = read format (p + 1) >>= fun _ => sized format two (p + 2) :=
      Scan.bind_congr (if_pos (read_val_of_drop hf))
    rw [if_pos htwo, hm]
    refine ⟨(read_within hlt).bind hw, ?_⟩
    rw [Scan.val_bind, hval]
    exact finds_sized two
  · have hne : ¬(read format (p + 1)).val = x := by
      intro h
      cases f with
      | nil => simp [read, hf, hx.symm] at h
      | cons b f' =>
        rw [read_val_of_drop hf] at h
        exact htwo ⟨f', by rw [h]; rfl⟩
    obtain ⟨hw, hval⟩ := sized_spec h0 (p := p + 1) hlt one
    have hm : m = read format (p + 1) >>= fun _ => sized format one (p + 1) :=
      Scan.bind_congr (if_neg hne)
    rw [if_neg htwo, hm]
    refine ⟨(read_within hlt).bind hw, ?_⟩
    rw [Scan.val_bind, hval]
    exact finds_sized one

theorem fmtValid_spec {p : ℕ} (hp : p ≤ format.length) :
    (fmtValid format p).Within format.length ∧
      Finds format p (fmtValid format p).val (Serialize.fmtValid (format.drop p)) := by
  cases hd : format.drop p with
  | nil =>
    have hend : p = format.length := by
      have := congrArg List.length hd
      rw [List.length_drop, List.length_nil] at this
      omega
    have hval : (read format p).val = 0 := by simp [read, hd]
    have heq : fmtValid format p = read format p >>= fun _ => pure (some (.int, p)) :=
      Scan.bind_congr (by rw [hval]; rfl)
    rw [heq]
    refine ⟨(read_within hp).bind (Scan.within_pure _ _), ?_⟩
    have hlist : Serialize.fmtValid [] = some (.int, format.drop p) := by rw [hd]; rfl
    rw [hlist]
    exact .some le_rfl hp fun _ => hend
  | cons b f =>
    have hb := ne_zero_of_drop h0 hd
    have hlt := lt_of_drop hd
    have hread := read_val_of_drop hd
    have hself : ∀ type, Finds format p (some (type, p)) (some (type, b :: f)) := by
      intro type
      rw [← hd]
      exact .some le_rfl hp id
    -- the tests in their order, each on the letter at `_p`
    have htests : fmtValid format p = read format p >>= fun _ =>
        if Serialize.strchr "diouxX" (b :: f) then pure (some (.int, p))
        else if Serialize.strchr "eEfFgGaA" (b :: f) then pure (some (.double, p))
        else if b = ch 'h' then read format (p + 1) >>= fun b' =>
          if b' = ch 'h' then sized format .int (p + 2) else sized format .int (p + 1)
        else if b = ch 'l' then read format (p + 1) >>= fun b' =>
          if b' = ch 'l' then sized format .longLong (p + 2) else sized format .long (p + 1)
        else pure none :=
      Scan.bind_congr (by rw [hread, strchr_cons hb f, strchr_cons hb f])
    rw [htests, Scan.within_bind, Scan.val_bind, Serialize.fmtValid,
      and_iff_right (read_within hp)]
    by_cases hint : Serialize.strchr "diouxX" (b :: f)
    · rw [if_pos hint, if_pos hint]
      exact ⟨Scan.within_pure _ _, hself _⟩
    rw [if_neg hint, if_neg hint]
    by_cases hdbl : Serialize.strchr "eEfFgGaA" (b :: f)
    · rw [if_pos hdbl, if_pos hdbl]
      exact ⟨Scan.within_pure _ _, hself _⟩
    rw [if_neg hdbl, if_neg hdbl]
    have hone (x : UInt8) : [x] <+: b :: f ↔ b = x := by simp [eq_comm]
    have htwo (x : UInt8) : [x, x] <+: b :: f → b = x := by simp +contextual [eq_comm]
    rw [show bytes "hh" = [ch 'h', ch 'h'] from rfl, show bytes "h" = [ch 'h'] from rfl,
      show bytes "ll" = [ch 'l', ch 'l'] from rfl, show bytes "l" = [ch 'l'] from rfl]
    by_cases hh : b = ch 'h'
    · obtain ⟨hw, hfind⟩ := modifier_spec h0 hd .int .int
      rw [if_pos hh, if_pos ((hone _).mpr hh)]
      rw [hh] at hw hfind ⊢
      exact ⟨hw, hfind⟩
    rw [if_neg hh, if_neg (fun h => hh (htwo _ h)), if_neg (fun h => hh ((hone _).mp h))]
    by_cases hl : b = ch 'l'
    · obtain ⟨hw, hfind⟩ := modifier_spec h0 hd .long .longLong
      rw [if_pos hl, if_pos ((hone _).mpr hl)]
      rw [hl] at hw hfind ⊢
      exact ⟨hw, hfind⟩
    rw [if_neg hl, if_neg (fun h => hl (htwo _ h)), if_neg (fun h => hl ((hone _).mp h))]
    exact ⟨Scan.within_pure _ _, .none⟩

omit h0 in
theorem copy_within {c l : ℕ} (h : c + l ≤ format.length + 1) :
    (copy format c l).Within format.length := by
  intro i hi
  have := List.mem_range'_1.mp hi
  omega

/-- A conversion that ends in its flags, its width or its precision. -/
def Open (format : Bytes) (c : ℕ) : Prop :=
  ∃ f, format.drop c = ch '%' :: f ∧ f ≠ [] ∧ Serialize.skipWidth f = []

/-- The position that `c` gets for a number of bytes read behind the percent sign. -/
def located (c : ℕ) (r : Except Fault (Option (Builder × ℕ))) :
    Except Fault (Option (Builder × ℕ)) :=
  r.map fun x => x.map fun (s, k) => (s, c + 1 + k)

/-- **A conversion for `vsnprintf`.** Nothing behind the NUL is read, and `c` gets behind it only if
the conversion is open. -/
theorem printf_spec (vsnprintf : Bytes → VaArg → Option Bytes) (s : Builder) {c : ℕ} {f : Bytes}
    (hd : format.drop c = ch '%' :: f) (hf : f ≠ []) :
    (printf vsnprintf format s c).Within format.length ∧
      (printf vsnprintf format s c).val = located c (s.printf vsnprintf f) ∧
      ∀ s' c', (printf vsnprintf format s c).val = .ok (some (s', c')) →
        c < c' ∧ (c' ≤ format.length ∨ c' = format.length + 1 ∧ Open format c) := by
  have hlt := lt_of_drop hd
  have hrest := drop_succ_of_drop hd
  obtain ⟨hw, hle, hlen, hdrop⟩ := skipWidth_moves h0 (c + 1) hlt
  obtain ⟨hw', hfind⟩ := fmtValid_spec h0 hlen
  rw [hrest] at hdrop
  rw [hdrop] at hfind
  simp only [printf, Scan.within_bind, Scan.val_bind, Builder.printf, hw, hw', true_and]
  generalize hv : (fmtValid format (skipWidth format (c + 1)).val).val = v at hfind
  generalize hv' : Serialize.fmtValid (Serialize.skipWidth f) = v' at hfind
  cases hfind with
  | none => exact ⟨Scan.within_pure _ _, rfl, by simp⟩
  | @some type q hle' hlen' hend =>
    cases hap : s.ap with
    | nil => exact ⟨Scan.within_pure _ _, rfl, by simp⟩
    | cons a ap =>
      have hfl : f.length = format.length - (c + 1) := by rw [← hrest, List.length_drop]
      have hl : f.length - (format.drop q).length + 2 = q + 1 - c := by
        rw [List.length_drop]
        omega
      dsimp only
      by_cases htype : ¬a.HasType type
      · rw [if_pos htype, if_pos htype]
        exact ⟨Scan.within_pure _ _, rfl, by simp⟩
      rw [if_neg htype, if_neg htype, hl]
      by_cases hshort : q + 1 - c < 16 - 2
      · rw [if_pos hshort, if_pos hshort]
        have hcopy : (copy format c (q + 1 - c)).val = ch '%' :: f.take (q + 1 - c - 1) := by
          obtain ⟨n, hn⟩ : ∃ n, q + 1 - c = n + 1 := ⟨q - c, by omega⟩
          rw [hn]
          simp only [copy, hd, List.take_succ_cons, Nat.add_sub_cancel]
        have hnext : c + 1 + (q + 1 - c - 1) = q + 1 := by omega
        have hopen : q = format.length → Open format c := by
          intro hq
          refine ⟨f, hd, hf, ?_⟩
          rw [← hdrop, hend hq]
          simp
        rw [Scan.within_bind, Scan.val_bind, hcopy, and_iff_right (copy_within (by omega))]
        cases vsnprintf (ch '%' :: f.take (q + 1 - c - 1)) a with
        | none => exact ⟨Scan.within_pure _ _, rfl, by simp⟩
        | some text =>
          dsimp only
          split_ifs
          · exact ⟨Scan.within_pure _ _, rfl, by simp⟩
          · refine ⟨Scan.within_pure _ _, ?_, ?_⟩
            · simp only [located, Except.map, Option.map, Scan.val_pure, hnext]
            · rintro s' c' hval
              obtain ⟨-, rfl⟩ : _ ∧ q + 1 = c' := by simpa using hval
              refine ⟨by omega, ?_⟩
              by_cases hq : q = format.length
              · exact .inr ⟨by omega, hopen hq⟩
              · exact .inl (by omega)
      · rw [if_neg hshort, if_neg hshort]
        refine ⟨Scan.within_pure _ _, rfl, ?_⟩
        rintro s' c' hval
        obtain ⟨-, rfl⟩ : _ ∧ c + 2 = c' := by simpa using hval
        exact ⟨by omega, .inl (by omega)⟩

omit h0 in
/-- The cases that do not read any further. -/
theorem convert_reads_one {vsnprintf : Bytes → VaArg → Option Bytes} {s s' : Builder} {b : UInt8}
    {f : Bytes} {k : ℕ} (hb : b = ch 's' ∨ b = ch 'b' ∨ b = ch '%')
    (h : s.convert vsnprintf (b :: f) = .ok (some (s', k))) : k = 1 := by
  rw [Builder.convert, List.head?_cons] at h
  rcases hb with rfl | rfl | rfl
  · rw [if_pos rfl] at h
    split at h
    · split at h
      · cases h
      · cases h; rfl
    · cases h
  · rw [if_neg (by decide), if_pos rfl] at h
    split at h
    · split_ifs at h
      cases h; rfl
    · cases h
  · rw [if_neg (by decide), if_neg (by decide), if_pos rfl] at h
    cases h; rfl

/-- **A conversion.** -/
theorem convert_spec (vsnprintf : Bytes → VaArg → Option Bytes) (s : Builder) {c : ℕ} {f : Bytes}
    (hd : format.drop c = ch '%' :: f) (hf : f ≠ []) :
    (convert vsnprintf format s c).Within format.length ∧
      (convert vsnprintf format s c).val = located c (s.convert vsnprintf f) ∧
      ∀ s' c', (convert vsnprintf format s c).val = .ok (some (s', c')) →
        c < c' ∧ (c' ≤ format.length ∨ c' = format.length + 1 ∧ Open format c) := by
  have hlt := lt_of_drop hd
  obtain ⟨b, f', rfl⟩ := List.exists_cons_of_ne_nil hf
  have hnext := drop_succ_of_drop hd
  have hlt' := lt_of_drop hnext
  have hread := read_val_of_drop hnext
  by_cases hb : b = ch 's' ∨ b = ch 'b' ∨ b = ch '%'
  · have heq : convert vsnprintf format s c = read format (c + 1) >>= fun _ =>
        pure (located c (s.convert vsnprintf [b])) :=
      Scan.bind_congr (by rw [hread]; exact if_pos hb)
    have hone : s.convert vsnprintf [b] = s.convert vsnprintf (b :: f') := by
      simp only [Builder.convert, List.head?_cons]
      rcases hb with rfl | rfl | rfl <;> rfl
    rw [heq, hone]
    refine ⟨(read_within hlt).bind (Scan.within_pure _ _), rfl, ?_⟩
    intro s' c' hval
    rw [Scan.val_bind, Scan.val_pure] at hval
    cases hconv : s.convert vsnprintf (b :: f') with
    | error e =>
      rw [hconv] at hval
      cases hval
    | ok r =>
      cases r with
      | none =>
        rw [hconv] at hval
        cases hval
      | some x =>
        obtain ⟨s'', k⟩ := x
        obtain rfl := convert_reads_one hb hconv
        rw [hconv] at hval
        cases hval
        exact ⟨by omega, .inl (by omega)⟩
  · have heq : convert vsnprintf format s c = read format (c + 1) >>= fun _ =>
        printf vsnprintf format s c :=
      Scan.bind_congr (by rw [hread]; exact if_neg hb)
    obtain ⟨hw, hval, hnext⟩ := printf_spec h0 vsnprintf s hd hf
    rw [heq, Scan.val_bind]
    refine ⟨(read_within hlt).bind hw, ?_, hnext⟩
    simp only [not_or] at hb
    rw [hval, Builder.convert, List.head?_cons, if_neg (by simpa using hb.1),
      if_neg (by simpa using hb.2.1), if_neg (by simpa using hb.2.2)]

/-! ### The loop -/

/-- The end of a turn at a conversion. -/
def Turn.ofConvert : Except Fault (Option (Builder × ℕ)) → Turn
  | .error e => .fault e
  | .ok none => .err
  | .ok (some (s, c)) => if s.curarg = [] then .err else .next c { s with touched := true }

omit h0 in
theorem turn_end (vsnprintf : Bytes → VaArg → Option Bytes) (s : Builder) :
    (turn vsnprintf format format.length s).Within format.length ∧
      (turn vsnprintf format format.length s).val = .done := by
  have heq : turn vsnprintf format format.length s = read format format.length >>= fun _ =>
      pure .done :=
    Scan.bind_congr (by rw [if_neg (lt_irrefl _), if_pos (by simp [read])])
  rw [heq]
  exact ⟨(read_within le_rfl).bind (Scan.within_pure _ _), rfl⟩

theorem turn_literal (vsnprintf : Bytes → VaArg → Option Bytes) (s : Builder) {c : ℕ} {b : UInt8}
    {f : Bytes} (hd : format.drop c = b :: f) (hb : b ≠ ch '%' ∨ f = []) :
    (turn vsnprintf format c s).Within format.length ∧
      (turn vsnprintf format c s).val = .next (c + 1) (s.literal b) := by
  have hlt := lt_of_drop hd
  have hread := read_val_of_drop hd
  have hzero := ne_zero_of_drop h0 hd
  by_cases hp : b = ch '%'
  · have hnil : format.drop (c + 1) = [] := by
      rw [drop_succ_of_drop hd]
      exact hb.resolve_left (fun h => h hp)
    have heq : turn vsnprintf format c s = read format c >>= fun _ => read format (c + 1) >>=
        fun _ => pure (.next (c + 1) (s.literal b)) := by
      refine Scan.bind_congr ?_
      rw [hread, if_neg (by omega), if_neg hzero, if_neg (by simpa using hp)]
      exact Scan.bind_congr (if_pos (by simp [read, hnil]))
    rw [heq]
    exact ⟨(read_within hlt.le).bind ((read_within hlt).bind (Scan.within_pure _ _)), rfl⟩
  · have heq : turn vsnprintf format c s = read format c >>= fun _ =>
        pure (.next (c + 1) (s.literal b)) := by
      refine Scan.bind_congr ?_
      rw [hread, if_neg (by omega), if_neg hzero, if_pos hp]
    rw [heq]
    exact ⟨(read_within hlt.le).bind (Scan.within_pure _ _), rfl⟩

theorem turn_conversion (vsnprintf : Bytes → VaArg → Option Bytes) (s : Builder) {c : ℕ}
    {f : Bytes} (hd : format.drop c = ch '%' :: f) (hf : f ≠ []) :
    (turn vsnprintf format c s).Within format.length ∧
      (turn vsnprintf format c s).val =
        .ofConvert (located c (s.convert vsnprintf f)) ∧
      ∀ s' c', (turn vsnprintf format c s).val = .next c' s' →
        c < c' ∧ (c' ≤ format.length ∨ c' = format.length + 1 ∧ Open format c) := by
  have hlt := lt_of_drop hd
  obtain ⟨b, f', rfl⟩ := List.exists_cons_of_ne_nil hf
  have hnext := drop_succ_of_drop hd
  have hlt' := lt_of_drop hnext
  obtain ⟨hw, hval, hbound⟩ := convert_spec h0 vsnprintf s hd hf
  have heq : turn vsnprintf format c s = read format c >>= fun _ => read format (c + 1) >>=
      fun _ => convert vsnprintf format s c >>= fun r => pure (.ofConvert r) := by
    refine Scan.bind_congr ?_
    rw [read_val_of_drop hd, if_neg (by omega), if_neg (by decide), if_neg (by simp)]
    refine Scan.bind_congr ?_
    rw [read_val_of_drop hnext, if_neg (ne_zero_of_drop h0 hnext)]
    refine Scan.bind_congr ?_
    generalize (convert vsnprintf format s c).val = r
    rcases r with e | _ | ⟨s, c⟩ <;> rfl
  rw [heq]
  refine ⟨(read_within hlt.le).bind ((read_within hlt).bind (hw.bind (Scan.within_pure _ _))), ?_, ?_⟩
  · simp only [Scan.val_bind, Scan.val_pure, hval]
  · intro s' c' hturn
    simp only [Scan.val_bind, Scan.val_pure] at hturn
    generalize hr : (convert vsnprintf format s c).val = r at hturn
    rcases r with e | _ | ⟨s'', c''⟩
    · cases hturn
    · cases hturn
    · simp only [Turn.ofConvert] at hturn
      split_ifs at hturn
      cases hturn
      exact hbound _ _ hr

end Spec

end Pink.Redis.Scanner
