import Pink.Redis.Format

/-! # Serializing a command by a format

`redisvFormatCommand` of `redis_cli.cc`: a command from a format and a list of variable arguments,
against `redisFormatCommandArgv`, which takes the arguments of the command as a list. A format is
read as a list of tokens (`Token`); its pieces between blanks, with the conversions substituted, are
the arguments that are meant (`argv`).

The two agree exactly if the format has no `%%`, for which the code appends nothing, no piece starts
with the conversion of an empty string, which the code takes for an error, and the length of the
command is announced rightly (`agree_iff`). -/

namespace Pink.Redis.Serialize

open Pink.Redis.Wire Pink.Redis.Format

/-! ### The model -/

/-- A variable argument. A pointer is given by the memory from there on. -/
inductive VaArg
  | ptr (mem : Bytes)
  | size (n : ℕ)
  | int (v : ℤ)
  | long (v : ℤ)
  | longLong (v : ℤ)
  | double (bits : UInt64)
  deriving DecidableEq, Repr

/-- The types that `va_arg` is called with for a conversion of `printf`. -/
inductive VaType
  | int | long | longLong | double
  deriving DecidableEq, Repr

def VaArg.HasType : VaArg → VaType → Bool
  | .int _, .int => true
  | .long _, .long => true
  | .longLong _, .longLong => true
  | .double _, .double => true
  | _, _ => false

inductive Fault
  /-- `va_arg` without an argument, or with one of another type. -/
  | undefined
  /-- Memory outside of the format, of an argument or of `buf` is read. -/
  | outOfBounds
  /-- `std::length_error`. -/
  | lengthError
  /-- A failed `assert`. -/
  | assertion
  deriving DecidableEq, Repr

/-- The variables of the loop. -/
structure Builder where
  curarg : Bytes := []
  args : Argv := []
  /-- Was the current argument touched? -/
  touched : Bool := false
  /-- A `size_t`. -/
  totlen : ℕ := 0
  ap : List VaArg

/-- `strlen`: `none` if there is no zero byte in the memory. -/
def strlen (mem : Bytes) : Option ℕ := if 0 ∈ mem then some (mem.idxOf 0) else none

/-- `strchr(set, *p) != NULL`; at the end of the format `*p` is the zero byte, which every string
has. -/
def strchr (set : String) : Bytes → Bool
  | [] => true
  | b :: _ => b ∈ bytes set

def isdigit (b : UInt8) : Bool := ch '0' ≤ b ∧ b ≤ ch '9'

def skipFlag (flag : Char) (p : Bytes) : Bytes := if p.head? = some (ch flag) then p.tail else p

/-- Flags, field width and precision. -/
def skipWidth (p : Bytes) : Bytes :=
  let p := skipFlag '+' (skipFlag ' ' (skipFlag '-' (skipFlag '0' (skipFlag '#' p))))
  let p := p.dropWhile isdigit
  if p.head? = some (ch '.') then p.tail.dropWhile isdigit else p

/-- `*_p != '\0' && strchr(intfmts, *_p) != NULL` -/
def isIntfmt (p : Bytes) : Bool := p ≠ [] ∧ strchr "diouxX" p

/-- The conversion at `_p`: the type of its argument, and `_p` at its last letter. -/
def fmtValid (p : Bytes) : Option (VaType × Bytes) :=
  if strchr "diouxX" p then some (.int, p)
  else if strchr "eEfFgGaA" p then some (.double, p)
  else if bytes "hh" <+: p then if isIntfmt (p.drop 2) then some (.int, p.drop 2) else none
  else if bytes "h" <+: p then if isIntfmt (p.drop 1) then some (.int, p.drop 1) else none
  else if bytes "ll" <+: p then if isIntfmt (p.drop 2) then some (.longLong, p.drop 2) else none
  else if bytes "l" <+: p then if isIntfmt (p.drop 1) then some (.long, p.drop 1) else none
  else none

namespace Builder

/-- The current argument is complete. -/
def push (s : Builder) : Builder :=
  { s with
    args := s.args ++ [s.curarg]
    totlen := (s.totlen + bulklen s.curarg.length) % 2 ^ 64
    curarg := []
    touched := false }

def literal (s : Builder) (b : UInt8) : Builder :=
  if b = ch ' ' then if s.touched then s.push else s
  else { s with curarg := s.curarg ++ [b], touched := true }

/-- The size of `buf`. -/
def BUF : ℕ := 1048576

/-- A conversion that is left to `vsnprintf`, which is given by the whole text that it prints, `none`
for a negative return value. `f` is the format behind the percent sign; the result is how much of it
is read, and `none` is `REDIS_ERR`. -/
def printf (vsnprintf : Bytes → VaArg → Option Bytes) (s : Builder) (f : Bytes) :
    Except Fault (Option (Builder × ℕ)) :=
  match fmtValid (skipWidth f), s.ap with
  | none, _ => .ok none
  | some _, [] => .error .undefined
  | some (type, p), a :: ap =>
    if ¬a.HasType type then .error .undefined
    else
      -- the letter at `_p` and the percent sign are counted
      let l := f.length - p.length + 2
      if l < 16 - 2 then
        match vsnprintf (ch '%' :: f.take (l - 1)) a with
        | none => .error .lengthError
        | some text =>
          if text.length > BUF then .error .outOfBounds
          else
            .ok (some ({ s with
              curarg := s.curarg ++ (text.take (BUF - 1) ++ [0]).take text.length
              ap := ap }, l - 1))
      else .ok (some ({ s with ap := ap }, 1))

/-- `case`s of `c[1]`; `f` is the format behind the percent sign, as for `printf`. -/
def convert (vsnprintf : Bytes → VaArg → Option Bytes) (s : Builder) (f : Bytes) :
    Except Fault (Option (Builder × ℕ)) :=
  if f.head? = some (ch 's') then
    match s.ap with
    | .ptr mem :: ap =>
      match strlen mem with
      | none => .error .outOfBounds
      | some size => .ok (some ({ s with curarg := s.curarg ++ mem.take size, ap := ap }, 1))
    | _ => .error .undefined
  else if f.head? = some (ch 'b') then
    match s.ap with
    | .ptr mem :: .size size :: ap =>
      if mem.length < size then .error .outOfBounds
      else .ok (some ({ s with curarg := s.curarg ++ mem.take size, ap := ap }, 1))
    | _ => .error .undefined
  -- `curarg.append(arg, size)` with the null pointer and no bytes
  else if f.head? = some (ch '%') then .ok (some (s, 1))
  else s.printf vsnprintf f

end Builder

/-- The loop of `redisvFormatCommand`, with the number of bytes of the format that are already read;
`none` is `REDIS_ERR`. -/
def formatLoop (vsnprintf : Bytes → VaArg → Option Bytes) :
    ℕ → Bytes → Builder → Except Fault (Option Builder)
  | 0, [], s => .ok (some s)
  | _ + 1, [], _ => .error .outOfBounds
  | k + 1, _ :: f, s => formatLoop vsnprintf k f s
  | 0, b :: f, s =>
    if b ≠ ch '%' ∨ f = [] then formatLoop vsnprintf 0 f (s.literal b)
    else
      match s.convert vsnprintf f with
      | .error e => .error e
      | .ok none => .ok none
      | .ok (some (s, k)) =>
        if s.curarg = [] then .ok none else formatLoop vsnprintf k f { s with touched := true }

def REDIS_ERR : ℤ := -1
def REDIS_OK : ℤ := 0

/-- The length that is announced for the arguments: `totlen` at the end. -/
def announced (totlen : ℕ) (args : Argv) : ℕ :=
  (totlen + (1 + intlen (toInt32 args.length) + 2)) % 2 ^ 64

/-- The last argument is added if needed. -/
def Builder.finish (s : Builder) : Builder := if s.touched then s.push else s

/-- The command is built: what is returned, and what `*cmd` is set to. The assertion is only there
in a `debug` build. -/
def Builder.build (debug : Bool) (s : Builder) : Except Fault (ℤ × Option Bytes) :=
  let totlen := announced s.totlen s.args
  if 2 ^ 63 ≤ totlen then .error .lengthError
  else if debug ∧ (commandBytes s.args).length ≠ totlen then .error .assertion
  else .ok (toInt32 totlen, some (commandBytes s.args))

def redisvFormatCommand (debug : Bool) (vsnprintf : Bytes → VaArg → Option Bytes) (format : Bytes)
    (ap : List VaArg) : Except Fault (ℤ × Option Bytes) :=
  match formatLoop vsnprintf 0 format { ap } with
  | .error e => .error e
  | .ok none => .ok (REDIS_ERR, none)
  | .ok (some s) => s.finish.build debug

/-- `redisvAppendCommand`, which is `SerializeRedisCommand(cmd, format, ...)`. -/
def redisvAppendCommand (debug : Bool) (vsnprintf : Bytes → VaArg → Option Bytes) (format : Bytes)
    (ap : List VaArg) : Except Fault (ℤ × Option Bytes) :=
  match redisvFormatCommand debug vsnprintf format ap with
  | .error e => .error e
  | .ok (len, cmd) => .ok (if len = -1 then REDIS_ERR else REDIS_OK, cmd)

/-! ### Formats -/

/-- A token of a format, a conversion together with the string that is passed for it. -/
inductive Token
  | lit (b : UInt8)
  | blank
  | str (s : Bytes)
  | bin (s : Bytes)
  | percent
  deriving DecidableEq, Repr

namespace Token

def format : Token → Bytes
  | .lit b => [b]
  | .blank => [ch ' ']
  | .str _ => bytes "%s"
  | .bin _ => bytes "%b"
  | .percent => bytes "%%"

def args : Token → List VaArg
  | .str s => [.ptr (s ++ [0])]
  | .bin s => [.ptr s, .size s.length]
  | _ => []

/-- What a token stands for. -/
def text : Token → Bytes
  | .lit b => [b]
  | .blank => []
  | .str s => s
  | .bin s => s
  | .percent => [ch '%']

/-- What the code appends for it. -/
def appended : Token → Bytes
  | .percent => []
  | t => t.text

/-- A literal is none of the special bytes, and the string for a `%s` ends at its first zero byte. -/
def Valid : Token → Prop
  | .lit b => b ≠ 0 ∧ b ≠ ch ' ' ∧ b ≠ ch '%'
  | .str s => 0 ∉ s
  | _ => True

instance : (t : Token) → Decidable t.Valid
  | .lit _ => inferInstanceAs (Decidable (_ ∧ _))
  | .str _ => inferInstanceAs (Decidable (_ ∉ _))
  | .blank => .isTrue trivial
  | .bin _ => .isTrue trivial
  | .percent => .isTrue trivial

def isBlank (t : Token) : Bool := t = .blank

end Token

/-- The pieces between blanks. -/
def pieces (ts : List Token) : List (List Token) := (ts.splitOnP Token.isBlank).filter (· ≠ [])

/-- **The arguments that a format stands for.** -/
def argv (ts : List Token) : Argv := (pieces ts).map fun p => p.flatMap Token.text

/-- **The two ways to serialize a command agree**: both succeed, with the same bytes. -/
def Agree (debug : Bool) (vsnprintf : Bytes → VaArg → Option Bytes) (ts : List Token) : Prop :=
  ∃ cmd, redisvAppendCommand debug vsnprintf (ts.flatMap Token.format) (ts.flatMap Token.args) =
    .ok (REDIS_OK, some cmd) ∧ redisFormatCommandArgv (argv ts) = some cmd

/-- The length of the command, as `intlen` and `bulklen` have it. -/
def total (argv : Argv) : ℕ := announced (argv.map fun a => bulklen a.length).sum argv

/-- **The code handles the format.** -/
structure Handled (debug : Bool) (ts : List Token) : Prop where
  percent : .percent ∉ ts
  /-- No piece starts with the conversion of an empty string. -/
  starts : ∀ p ∈ pieces ts, ∀ t ∈ p.head?, t.text ≠ []
  /-- The length is not negative as an `int`, and can be reserved. -/
  announced : 0 ≤ toInt32 (total (argv ts)) ∧ total (argv ts) < 2 ^ 63
  /-- It is the length of the command. -/
  right : debug → total (argv ts) = (commandBytes (argv ts)).length

/-! ### Pieces -/

section Pieces
variable {cur ts : List Token} {t : Token}

theorem pieces_of_no_blank (h : ∀ t ∈ cur, t.isBlank = false) :
    pieces cur = if cur = [] then [] else [cur] := by
  rw [pieces, List.splitOnP_eq_singleton h]
  by_cases hc : cur = []
  · simp [hc]
  · simp [hc]

theorem pieces_append_blank (h : ∀ t ∈ cur, t.isBlank = false) :
    pieces (cur ++ .blank :: ts) = (if cur = [] then [] else [cur]) ++ pieces ts := by
  rw [pieces, List.splitOnP_append_cons_of_forall_mem h _ rfl, pieces]
  by_cases hc : cur = []
  · simp [hc]
  · simp [hc]

/-- The piece of a token that is not a blank. -/
theorem exists_piece (ht : t.isBlank = false) : ∃ p ∈ pieces (t :: ts), p.head? = some t := by
  rw [pieces, List.splitOnP_cons_eq_if_modifyHead, ht]
  obtain ⟨q, qs, hq⟩ := List.exists_cons_of_ne_nil (List.splitOnP_ne_nil Token.isBlank ts)
  rw [hq]
  exact ⟨t :: q, by simp, rfl⟩

/-- The pieces hold all tokens but the blanks. -/
theorem flatten_pieces (ts : List Token) :
    (pieces ts).flatten = ts.filter fun t => !t.isBlank := by
  rw [pieces, List.flatten_filter_ne_nil]
  induction ts with
  | nil => rfl
  | cons t ts ih =>
    rw [List.splitOnP_cons_eq_if_modifyHead]
    obtain ⟨q, qs, hq⟩ := List.exists_cons_of_ne_nil (List.splitOnP_ne_nil Token.isBlank ts)
    rw [hq] at ih ⊢
    by_cases ht : t.isBlank = true
    · rw [if_pos ht, List.filter_cons_of_neg (by simp [ht])]
      exact ih
    · rw [if_neg ht, List.filter_cons_of_pos (by simp [ht]), ← ih]
      rfl

end Pieces

/-! ### The loop -/

section Loop
variable {vsnprintf : Bytes → VaArg → Option Bytes}

/-- The token after which the code finds the current argument empty. -/
def Token.isConversion : Token → Bool
  | .lit _ => false
  | .blank => false
  | _ => true

theorem strlen_append {s : Bytes} (h : 0 ∉ s) : strlen (s ++ [0]) = some s.length := by
  rw [strlen, if_pos (by simp), List.idxOf_append_of_notMem h]
  simp

/-- **The loop at a conversion.** -/
theorem formatLoop_conversion {t : Token} (ht : t.Valid) (hc : t.isConversion = true) (f : Bytes)
    {s : Builder} {ap : List VaArg} (hap : s.ap = t.args ++ ap) :
    formatLoop vsnprintf 0 (t.format ++ f) s =
      if s.curarg ++ t.appended = [] then .ok none
      else formatLoop vsnprintf 0 f { s with
        curarg := s.curarg ++ t.appended, touched := true, ap := ap } := by
  obtain ⟨b, hf, hconv⟩ : ∃ b, t.format = [ch '%', b] ∧ s.convert vsnprintf (b :: f) =
      .ok (some ({ s with curarg := s.curarg ++ t.appended, ap := ap }, 1)) := by
    cases t with
    | lit b => cases hc
    | blank => cases hc
    | str u =>
      refine ⟨ch 's', show bytes "%s" = _ by decide, ?_⟩
      rw [Builder.convert, List.head?_cons, if_pos rfl, hap]
      simp [Token.args, strlen_append ht, Token.appended, Token.text]
    | bin u =>
      refine ⟨ch 'b', show bytes "%b" = _ by decide, ?_⟩
      rw [Builder.convert, List.head?_cons, if_neg (by decide), if_pos rfl, hap]
      simp [Token.args, Token.appended, Token.text]
    | percent =>
      refine ⟨ch '%', by decide, ?_⟩
      rw [Builder.convert, List.head?_cons, if_neg (by decide), if_neg (by decide), if_pos rfl]
      simp only [Token.args, List.nil_append] at hap
      simp [Token.appended, ← hap]
  rw [hf]
  simp only [List.cons_append, List.nil_append]
  rw [formatLoop, if_neg (by simp), hconv]
  dsimp only
  split_ifs
  · rfl
  · rw [formatLoop]

/-- At a blank. -/
theorem formatLoop_blank (f : Bytes) (s : Builder) :
    formatLoop vsnprintf 0 (Token.blank.format ++ f) s = formatLoop vsnprintf 0 f s.finish := by
  show formatLoop vsnprintf 0 (ch ' ' :: f) s = _
  rw [formatLoop, if_pos (.inl (by decide)), Builder.literal, if_pos rfl]
  rfl

/-- At a literal. -/
theorem formatLoop_lit {b : UInt8} (hb : (Token.lit b).Valid) (f : Bytes) (s : Builder) :
    formatLoop vsnprintf 0 ((Token.lit b).format ++ f) s =
      formatLoop vsnprintf 0 f { s with curarg := s.curarg ++ [b], touched := true } := by
  obtain ⟨-, hspace, hpercent⟩ := hb
  show formatLoop vsnprintf 0 (b :: f) s = _
  rw [formatLoop, if_pos (.inl hpercent), Builder.literal, if_neg hspace]

/-- No piece starts with a token for which nothing is appended. -/
def Starts (ps : List (List Token)) : Prop := ∀ p ∈ ps, ∀ t ∈ p.head?, t.appended ≠ []

/-- The pieces `done` are complete, and `cur` is what has been read of the current one. -/
structure Built (s : Builder) (done : List (List Token)) (cur : List Token) (ap : List VaArg) :
    Prop where
  args : s.args = done.map fun p => p.flatMap Token.appended
  curarg : s.curarg = cur.flatMap Token.appended
  touched : s.touched = decide (cur ≠ [])
  totlen : s.totlen = (s.args.map fun a => bulklen a.length).sum % 2 ^ 64
  ap : s.ap = ap
  noBlank : ∀ t ∈ cur, t.isBlank = false
  started : ∀ t ∈ cur.head?, t.appended ≠ []

/-- What `formatLoop` returns for the pieces `ps`. -/
def Outcome (done ps : List (List Token)) : Option Builder → Prop
  | none => ¬Starts ps
  | some s => Starts ps ∧ Built s.finish (done ++ ps) [] []

section Built
variable {s : Builder} {done : List (List Token)} {cur : List Token} {ap : List VaArg}

theorem Built.curarg_ne_nil (h : Built s done cur ap) (hc : cur ≠ []) : s.curarg ≠ [] := by
  obtain ⟨t, cur, rfl⟩ := List.exists_cons_of_ne_nil hc
  rw [h.curarg, List.flatMap_cons]
  simp [h.started t rfl]

theorem Built.starts_cur (h : Built s done cur ap) : Starts (if cur = [] then [] else [cur]) := by
  intro p hp
  split_ifs at hp
  · simp at hp
  · rw [List.mem_singleton.mp hp]; exact h.started

/-- At a blank, and at the end of the format. -/
theorem Built.finish (h : Built s done cur ap) :
    Built s.finish (done ++ if cur = [] then [] else [cur]) [] ap := by
  unfold Builder.finish
  rw [h.touched]
  by_cases hc : cur = []
  · rw [if_neg (by simp [hc]), if_pos hc, List.append_nil]
    exact ⟨h.args, by rw [h.curarg, hc], by rw [h.touched, hc], h.totlen, h.ap, by simp, by simp⟩
  · rw [if_pos (by simp [hc]), if_neg hc]
    refine ⟨?_, rfl, rfl, ?_, h.ap, by simp, by simp⟩
    · simp only [Builder.push, h.args, h.curarg, List.map_append, List.map_cons, List.map_nil]
    · simp only [Builder.push, List.map_append, List.map_cons, List.map_nil, List.sum_append,
        List.sum_cons, List.sum_nil, h.totlen]
      omega

/-- At any other token. -/
theorem Built.snoc {t : Token} {ap' : List VaArg} (h : Built s done cur ap')
    (ht : t.isBlank = false) (hne : s.curarg ++ t.appended ≠ []) :
    Built { s with curarg := s.curarg ++ t.appended, touched := true, ap := ap } done
      (cur ++ [t]) ap := by
  refine ⟨h.args, by simp [h.curarg], by simp, h.totlen, rfl, fun t' ht' => ?_, fun t' ht' => ?_⟩
  · rcases List.mem_append.mp ht' with ht' | ht'
    · exact h.noBlank t' ht'
    · rw [List.mem_singleton.mp ht']; exact ht
  · cases cur with
    | nil =>
      rw [h.curarg] at hne
      obtain rfl : t = t' := by simpa using ht'
      simpa using hne
    | cons u cur => exact h.started t' ht'

end Built

/-- **What the loop makes of a format**: the pieces, or `REDIS_ERR` if one starts empty. -/
theorem formatLoop_outcome : ∀ (ts : List Token) {s : Builder} {done : List (List Token)}
    {cur : List Token}, (∀ t ∈ ts, t.Valid) → Built s done cur (ts.flatMap Token.args) →
    ∃ r, formatLoop vsnprintf 0 (ts.flatMap Token.format) s = .ok r ∧
      Outcome done (pieces (cur ++ ts)) r := by
  intro ts
  induction ts with
  | nil =>
    intro s done cur _ h
    refine ⟨some s, rfl, ?_⟩
    rw [List.append_nil, pieces_of_no_blank h.noBlank]
    exact ⟨h.starts_cur, h.finish⟩
  | cons t ts ih =>
    intro s done cur hv h
    have ht := hv t (by simp)
    have hvs : ∀ t ∈ ts, t.Valid := fun t ht => hv t (List.mem_cons_of_mem _ ht)
    rw [List.flatMap_cons] at h ⊢
    by_cases hb : t = .blank
    · subst hb
      obtain ⟨r, hr, ho⟩ := ih hvs h.finish
      refine ⟨r, (formatLoop_blank _ s).trans hr, ?_⟩
      rw [pieces_append_blank h.noBlank]
      cases r with
      | none => exact fun hs => ho fun p hp => hs p (List.mem_append_right _ hp)
      | some s' =>
        refine ⟨fun p hp => ?_, by rw [← List.append_assoc]; exact ho.2⟩
        rcases List.mem_append.mp hp with hp | hp
        · exact h.starts_cur p hp
        · exact ho.1 p hp
    have hblank : t.isBlank = false := by simp [Token.isBlank, hb]
    have happ : cur ++ t :: ts = (cur ++ [t]) ++ ts := by simp
    by_cases hc : t.isConversion = true
    · rw [formatLoop_conversion ht hc _ h.ap]
      by_cases hne : s.curarg ++ t.appended = []
      · obtain ⟨hcur, hempty⟩ := List.append_eq_nil_iff.mp hne
        have hnil : cur = [] := by
          by_contra hc
          exact h.curarg_ne_nil hc hcur
        obtain ⟨p, hp, hhead⟩ : ∃ p ∈ pieces (t :: ts), p.head? = some t := exists_piece hblank
        rw [if_pos hne, hnil, List.nil_append]
        exact ⟨none, rfl, fun hs => hs p hp t hhead hempty⟩
      · rw [if_neg hne, happ]
        exact ih hvs (h.snoc hblank hne)
    · obtain ⟨b, rfl⟩ : ∃ b, t = .lit b := by
        cases t with
        | lit b => exact ⟨b, rfl⟩
        | blank => exact absurd rfl hb
        | _ => exact absurd rfl hc
      have hap : s.ap = ts.flatMap Token.args := h.ap
      rw [formatLoop_lit ht, happ]
      refine ih hvs ?_
      rw [← hap]
      exact h.snoc (t := .lit b) hblank (by simp [Token.appended, Token.text])

theorem formatLoop_start (vsnprintf : Bytes → VaArg → Option Bytes) {ts : List Token}
    (hv : ∀ t ∈ ts, t.Valid) :
    ∃ r, formatLoop vsnprintf 0 (ts.flatMap Token.format) { ap := ts.flatMap Token.args } = .ok r ∧
      Outcome [] (pieces ts) r := by
  have h : Built { ap := ts.flatMap Token.args } [] [] (ts.flatMap Token.args) :=
    ⟨rfl, rfl, rfl, rfl, rfl, by simp, by simp⟩
  exact formatLoop_outcome ts hv h

/-- The arguments that the code makes of a format. -/
def appendedArgv (ts : List Token) : Argv := (pieces ts).map fun p => p.flatMap Token.appended

/-- A format with a piece that starts empty. -/
theorem redisvAppendCommand_err {debug : Bool} {ts : List Token} (hv : ∀ t ∈ ts, t.Valid)
    (h : ¬Starts (pieces ts)) :
    redisvAppendCommand debug vsnprintf (ts.flatMap Token.format) (ts.flatMap Token.args) =
      .ok (REDIS_ERR, none) := by
  obtain ⟨r, hr, ho⟩ := formatLoop_start vsnprintf hv
  cases r with
  | some s => exact absurd ho.1 h
  | none =>
    rw [redisvAppendCommand, redisvFormatCommand, hr]
    rfl

/-- A format without. -/
theorem redisvAppendCommand_eq {debug : Bool} {ts : List Token} (hv : ∀ t ∈ ts, t.Valid)
    (h : Starts (pieces ts)) :
    redisvAppendCommand debug vsnprintf (ts.flatMap Token.format) (ts.flatMap Token.args) =
      if 2 ^ 63 ≤ total (appendedArgv ts) then .error .lengthError
      else if debug ∧ (commandBytes (appendedArgv ts)).length ≠ total (appendedArgv ts) then
        .error .assertion
      else .ok (if toInt32 (total (appendedArgv ts)) = -1 then REDIS_ERR else REDIS_OK,
        some (commandBytes (appendedArgv ts))) := by
  obtain ⟨r, hr, ho⟩ := formatLoop_start vsnprintf hv
  cases r with
  | none => exact absurd h ho
  | some s =>
    have hargs : s.finish.args = appendedArgv ts := ho.2.args
    have htotal : announced s.finish.totlen s.finish.args = total (appendedArgv ts) := by
      rw [ho.2.totlen, hargs, announced, total, announced, Nat.mod_add_mod]
    have hbuild : redisvFormatCommand debug vsnprintf (ts.flatMap Token.format)
        (ts.flatMap Token.args) = s.finish.build debug := by
      rw [redisvFormatCommand, hr]
    rw [redisvAppendCommand, hbuild, Builder.build, htotal, hargs]
    by_cases h1 : 2 ^ 63 ≤ total (appendedArgv ts)
    · rw [if_pos h1, if_pos h1]
    rw [if_neg h1, if_neg h1]
    by_cases h2 : debug ∧ (commandBytes (appendedArgv ts)).length ≠ total (appendedArgv ts)
    · rw [if_pos h2, if_pos h2]
    · rw [if_neg h2, if_neg h2]

end Loop

/-! ### Lengths -/

theorem toInt32_sizeT (v : ℤ) : toInt32 (sizeT v) = Int.bmod v (2 ^ 32) := by
  have h : ((v % 2 ^ 64).toNat : ℤ) % (2 ^ 32 : ℕ) = v % (2 ^ 32 : ℕ) := by push_cast; omega
  unfold toInt32 sizeT Int.bmod
  rw [h]

theorem addBulks_bmod (argv : Argv) : ∀ t : ℤ, addBulks (Int.bmod t (2 ^ 32)) argv =
    Int.bmod (t + ((argv.map fun a => bulklen a.length).sum : ℕ)) (2 ^ 32) := by
  induction argv with
  | nil => intro t; simp [addBulks]
  | cons a argv ih =>
    intro t
    rw [addBulks, toInt32_sizeT, Int.bmod_add_bmod, ih, List.map_cons, List.sum_cons]
    push_cast
    rw [add_assoc]

theorem intlenLoop_le : ∀ f i len : ℕ, intlenLoop f i len ≤ len + f
  | 0, _, _ => le_rfl
  | f + 1, i, len => by
    rw [intlenLoop]
    split_ifs
    · omega
    · have := intlenLoop_le f (i / 10) (len + 1); omega

theorem intlen_le (i : ℤ) : intlen i ≤ 11 := by
  unfold intlen
  split_ifs
  · exact intlenLoop_le 10 _ 1
  · exact (intlenLoop_le 10 _ 0).trans (by norm_num)

/-- **The two functions announce the same length**, one as a `size_t` and one as an `int`. -/
theorem totlen_eq_total (argv : Argv) : totlen argv = toInt32 (total argv) := by
  have hle := intlen_le (toInt32 argv.length)
  have hfirst : (1 + intlen (toInt32 argv.length) + 2 : ℤ) =
      Int.bmod (1 + intlen (toInt32 argv.length) + 2) (2 ^ 32) :=
    (Int.bmod_eq_of_le (by omega) (by omega)).symm
  unfold totlen
  rw [hfirst, addBulks_bmod, total, announced]
  unfold toInt32 Int.bmod
  push_cast
  omega

theorem length_decimalNat_mono {m n : ℕ} (h : m ≤ n) :
    (decimalNat m).length ≤ (decimalNat n).length := by
  by_cases hm : m = 0
  · have hone : (decimalNat m).length = 1 := by rw [hm]; rfl
    have := List.length_pos_iff.mpr (decimalNat_ne_nil n)
    omega
  · unfold decimalNat
    rw [if_neg hm, if_neg (by omega)]
    simpa using Nat.le_length_digits_le 10 m n h

theorem length_bulkBytes_mono {a b : Bytes} (h : a.length ≤ b.length) :
    (bulkBytes a).length + (b.length - a.length) ≤ (bulkBytes b).length := by
  have := length_decimalNat_mono h
  simp only [bulkBytes, List.length_cons, List.length_append, List.length_nil]
  omega

theorem Token.length_appended_le (t : Token) : t.appended.length ≤ t.text.length := by
  cases t <;> simp [appended, text]

theorem length_appended_le (p : List Token) :
    (p.flatMap Token.appended).length ≤ (p.flatMap Token.text).length := by
  rw [List.length_flatMap, List.length_flatMap]
  exact List.sum_le_sum fun t _ => t.length_appended_le

theorem length_appended_lt {p : List Token} (h : .percent ∈ p) :
    (p.flatMap Token.appended).length < (p.flatMap Token.text).length := by
  rw [List.length_flatMap, List.length_flatMap]
  exact List.sum_lt_sum _ _ (fun t _ => t.length_appended_le)
    ⟨_, h, by simp [Token.appended, Token.text]⟩

/-- **A lost percent sign makes the command shorter.** -/
theorem length_appendedArgv_lt {ts : List Token} (h : .percent ∈ ts) :
    (commandBytes (appendedArgv ts)).length < (commandBytes (argv ts)).length := by
  have hmem : .percent ∈ (pieces ts).flatten := by
    rw [flatten_pieces]
    exact List.mem_filter.mpr ⟨h, rfl⟩
  obtain ⟨p, hp, hpp⟩ := List.mem_flatten.mp hmem
  have hlen : (argv ts).length = (appendedArgv ts).length := by simp [argv, appendedArgv]
  rw [length_commandBytes, length_commandBytes, hlen]
  refine Nat.add_lt_add_left ?_ _
  rw [argv, appendedArgv, List.length_flatMap, List.length_flatMap, List.map_map, List.map_map]
  refine List.sum_lt_sum _ _ (fun q _ => ?_) ⟨p, hp, ?_⟩
  · have := length_bulkBytes_mono (length_appended_le q)
    dsimp only [Function.comp]
    omega
  · have := length_bulkBytes_mono (length_appended_le p)
    have := length_appended_lt hpp
    dsimp only [Function.comp]
    omega

/-! ### The two ways -/

/-- Without a percent sign the code appends what is meant. -/
theorem appended_of_no_percent {ts : List Token} (h : .percent ∉ ts) {p : List Token}
    (hp : p ∈ pieces ts) : ∀ t ∈ p, t.appended = t.text := by
  intro t ht
  have hmem : t ∈ (pieces ts).flatten := List.mem_flatten.mpr ⟨p, hp, ht⟩
  rw [flatten_pieces] at hmem
  have hne : t ≠ .percent := fun he => h (he ▸ (List.mem_filter.mp hmem).1)
  cases t with
  | percent => exact absurd rfl hne
  | _ => rfl

theorem appendedArgv_eq {ts : List Token} (h : .percent ∉ ts) : appendedArgv ts = argv ts := by
  refine List.map_congr_left fun p hp => ?_
  rw [List.flatMap_def, List.flatMap_def, List.map_congr_left (appended_of_no_percent h hp)]

theorem starts_iff {ts : List Token} (h : .percent ∉ ts) :
    Starts (pieces ts) ↔ ∀ p ∈ pieces ts, ∀ t ∈ p.head?, t.text ≠ [] := by
  refine forall₂_congr fun p hp => forall₂_congr fun t ht => ?_
  rw [appended_of_no_percent h hp t (List.mem_of_mem_head? ht)]

/-- **The two ways to serialize a command agree exactly if the code handles the format.** -/
theorem agree_iff (debug : Bool) (vsnprintf : Bytes → VaArg → Option Bytes) (ts : List Token)
    (hv : ∀ t ∈ ts, t.Valid) : Agree debug vsnprintf ts ↔ Handled debug ts := by
  constructor
  · rintro ⟨cmd, hf, ha⟩
    have hst : Starts (pieces ts) := by
      by_contra hst
      rw [redisvAppendCommand_err hv hst] at hf
      simp at hf
    rw [redisvAppendCommand_eq hv hst] at hf
    split_ifs at hf with h1 h2 h4
    · simp [REDIS_ERR, REDIS_OK] at hf
    simp only [Except.ok.injEq, Prod.mk.injEq, Option.some.injEq] at hf
    obtain ⟨-, rfl⟩ := hf
    rw [redisFormatCommandArgv] at ha
    split_ifs at ha with h3
    have hbytes := Option.some.inj ha
    have hpercent : .percent ∉ ts := fun hp => by
      have := length_appendedArgv_lt hp
      rw [hbytes] at this
      exact lt_irrefl _ this
    rw [appendedArgv_eq hpercent] at h1 h2
    rw [totlen_eq_total] at h3
    refine ⟨hpercent, (starts_iff hpercent).mp hst, ⟨by omega, by omega⟩, fun hd => ?_⟩
    by_contra hne
    exact h2 ⟨hd, fun he => hne he.symm⟩
  · rintro ⟨hpercent, hst, ⟨h1, h2⟩, h3⟩
    refine ⟨commandBytes (argv ts), ?_, ?_⟩
    · rw [redisvAppendCommand_eq hv ((starts_iff hpercent).mpr hst), appendedArgv_eq hpercent,
        if_neg (by omega), if_neg (fun h => h.2 (h3 h.1).symm), if_neg (by omega)]
    · rw [redisFormatCommandArgv, totlen_eq_total, if_neg (by omega)]

theorem sum_bulklen {argv : Argv} (h : (argv.flatMap bulkBytes).length < 2 ^ 31) :
    (argv.map fun a => bulklen a.length).sum = (argv.flatMap bulkBytes).length := by
  induction argv with
  | nil => rfl
  | cons a argv ih =>
    rw [List.flatMap_cons, List.length_append] at h
    have ha := length_le_bulkBytes a
    rw [List.map_cons, List.sum_cons, ih (by omega), bulklen_eq (by omega), List.flatMap_cons,
      List.length_append]

/-- **A command shorter than `2 ^ 31` bytes is announced rightly.** -/
theorem total_eq {argv : Argv} (h : (commandBytes argv).length < 2 ^ 31) :
    total argv = (commandBytes argv).length := by
  have hlt := length_lt_commandBytes argv
  have hlen := length_commandBytes argv
  rw [total, announced, sum_bulklen (by omega), toInt32_of_lt (by omega),
    intlen_natCast (by omega), Nat.mod_eq_of_lt (by omega)]
  omega

/-- So every command of that length is handled, but for the percent signs and the empty starts. -/
theorem handled_of_short (debug : Bool) {ts : List Token}
    (hlen : (commandBytes (argv ts)).length < 2 ^ 31) (hpercent : .percent ∉ ts)
    (hst : ∀ p ∈ pieces ts, ∀ t ∈ p.head?, t.text ≠ []) : Handled debug ts := by
  have htotal := total_eq hlen
  refine ⟨hpercent, hst, ?_, fun _ => htotal⟩
  rw [htotal, toInt32_of_lt hlen]
  exact ⟨by omega, by omega⟩

/-- A format with literals, an empty string that does not start a piece, and blanks, percent signs
and zero bytes in the strings. -/
def setFormat : List Token := [.lit (ch 'S'), .blank, .str (bytes "a %"), .bin [0], .str [],
  .blank, .blank, .lit (ch 'x'), .str [], .blank]

theorem agree_iff_set : Agree true (fun _ _ => none) setFormat := by
  refine (agree_iff true _ setFormat (by decide +kernel)).mpr ?_
  exact handled_of_short true (by decide +kernel) (by decide +kernel) (by decide +kernel)

/-- The format `SET %s %s`. -/
def setValue (key value : Bytes) : List Token :=
  [.lit (ch 'S'), .lit (ch 'E'), .lit (ch 'T'), .blank, .str key, .blank, .str value]

/-- The format `GET a%%`. -/
def getPercent : List Token :=
  [.lit (ch 'G'), .lit (ch 'E'), .lit (ch 'T'), .blank, .lit (ch 'a'), .percent]

/-- An empty value is an error, and the percent sign is lost. -/
theorem not_agree :
    ¬Agree false (fun _ _ => none) (setValue (bytes "k") []) ∧
    ¬Agree false (fun _ _ => none) getPercent := by
  constructor
  · rintro ⟨cmd, hf, -⟩
    have herr : redisvAppendCommand false (fun _ _ => none)
        ((setValue (bytes "k") []).flatMap Token.format)
        ((setValue (bytes "k") []).flatMap Token.args) = .ok (REDIS_ERR, none) := by
      decide +kernel
    rw [herr] at hf
    simp at hf
  · rintro ⟨cmd, hf, ha⟩
    have hlost : redisvAppendCommand false (fun _ _ => none) (getPercent.flatMap Token.format)
        (getPercent.flatMap Token.args) =
          .ok (REDIS_OK, some (bytes "*2\r\n$3\r\nGET\r\n$1\r\na\r\n")) := by
      decide +kernel
    have hargv : redisFormatCommandArgv (argv getPercent) =
        some (bytes "*2\r\n$3\r\nGET\r\n$2\r\na%\r\n") := by
      decide +kernel
    rw [hlost] at hf
    rw [hargv] at ha
    simp only [Except.ok.injEq, Prod.mk.injEq, Option.some.injEq, true_and] at hf ha
    rw [← ha] at hf
    exact absurd hf (by decide +kernel)

end Pink.Redis.Serialize
