import Pink.Redis.Wire

/-! # The inline tokenizer

`split2args` of `redis_parser.cc`: a C string is split at blanks into arguments, double and single
quotes group characters, and in double quotes `\xHH` and the usual one-letter escapes are decoded.
The string is the list of the bytes up to the end of the buffer, which is NUL-terminated: reading
past the list gives NUL, and a NUL in the list ends the string as well. -/

namespace Pink.Redis.Split2args

open Pink.Redis.Wire

abbrev backslash : UInt8 := 92
abbrev dquote : UInt8 := 34
abbrev squote : UInt8 := 39

/-- The byte `*(p + i)`. -/
def peek (p : Bytes) (i : ℕ) : UInt8 := p.getD i 0

def isspace (c : UInt8) : Bool := c == 32 || (9 ≤ c && c ≤ 13)

def isHexDigit (c : UInt8) : Bool :=
  (ch '0' ≤ c && c ≤ ch '9') || (ch 'a' ≤ c && c ≤ ch 'f') || (ch 'A' ≤ c && c ≤ ch 'F')

/-- `HexDigitToInt32`: the letters count from `0`. -/
def hexDigitToInt32 (c : UInt8) : ℕ :=
  if c ≤ ch '9' ∧ ch '0' ≤ c then c.toNat - (ch '0').toNat
  else if c ≤ ch 'F' ∧ ch 'A' ≤ c then c.toNat - (ch 'A').toNat
  else if c ≤ ch 'f' ∧ ch 'a' ≤ c then c.toNat - (ch 'a').toNat
  else 0

/-- The byte that a one-letter escape stands for. -/
def unescape (c : UInt8) : UInt8 :=
  if c = ch 'n' then 10
  else if c = ch 'r' then 13
  else if c = ch 't' then 9
  else if c = ch 'b' then 8
  else if c = ch 'a' then 7
  else c

/-- `inq` and `insq`. -/
inductive Quote
  | plain | inq | insq
  deriving DecidableEq, Repr

/-- The inner loop of `split2args`: read one token from `p` on, appending to `arg`. The result is
the token and the pointer after `if (*p) p++`, or `none` where the function returns `-1`. -/
def getToken : Quote → Bytes → Bytes → Option (Bytes × Bytes)
  | .plain, [], arg => some (arg, [])
  | .inq, [], _ => none
  | .insq, [], _ => none
  | .inq, c :: r, arg =>
    if c = 0 then none
    else if c = backslash ∧ peek r 0 = ch 'x' ∧ isHexDigit (peek r 1) ∧ isHexDigit (peek r 2) then
      match r with
      | _ :: h1 :: h2 :: r' =>
        getToken .inq r'
          (arg ++ [UInt8.ofNat (hexDigitToInt32 h1 * 16 + hexDigitToInt32 h2)])
      | _ => none -- not reached: past the list `peek` is NUL
    else if c = backslash ∧ peek r 0 ≠ 0 then
      match r with
      | d :: r' => getToken .inq r' (arg ++ [unescape d])
      | [] => none
    else if c = dquote then
      -- closing quote must be followed by a space or nothing at all
      if peek r 0 ≠ 0 ∧ ¬ isspace (peek r 0) then none else some (arg, r)
    else getToken .inq r (arg ++ [c])
  | .insq, c :: r, arg =>
    if c = 0 then none
    else if c = backslash ∧ peek r 0 = squote then
      match r with
      | _ :: r' => getToken .insq r' (arg ++ [squote])
      | [] => none
    else if c = squote then
      if peek r 0 ≠ 0 ∧ ¬ isspace (peek r 0) then none else some (arg, r)
    else getToken .insq r (arg ++ [c])
  | .plain, c :: r, arg =>
    if c = 0 then some (arg, c :: r)
    else if c = 32 ∨ c = 10 ∨ c = 13 ∨ c = 9 then some (arg, r)
    else if c = dquote then getToken .inq r arg
    else if c = squote then getToken .insq r arg
    else getToken .plain r (arg ++ [c])

/-- `while (*p && isspace(*p)) p++`. -/
def skipBlanks (p : Bytes) : Bytes := p.dropWhile fun c => c != 0 && isspace c

/-- The outer loop of `split2args`. Every token takes at least one byte, so as much fuel as there
are bytes is never used up. -/
def split2argsLoop : ℕ → Bytes → Argv → Option Argv
  | 0, _, argv => some argv
  | n + 1, p, argv =>
    let p := skipBlanks p
    if peek p 0 = 0 then some argv
    else
      match getToken .plain p [] with
      | none => none
      | some (arg, p) => split2argsLoop n p (argv ++ [arg])

/-- `split2args(req_buf, argv)` with an empty `argv`; `none` is the return value `-1`. -/
def split2args (reqBuf : Bytes) : Option Argv := split2argsLoop (reqBuf.length + 1) reqBuf []

example : split2args (bytes "SET a \"b c\"\r\n") = some [bytes "SET", bytes "a", bytes "b c"] := by
  decide +kernel

/-! ### One token -/

/-- A token leaves no more than there was. -/
theorem getToken_length_le : ∀ {q : Quote} {p arg a r : Bytes}, getToken q p arg = some (a, r) →
    r.length ≤ p.length := by
  intro q p arg a r h
  fun_induction getToken q p arg
  case case5 ih =>
    have := ih h
    simp only [List.length_cons]
    omega
  all_goals simp_all
  all_goals omega

/-- A token that begins with a byte takes it. -/
theorem getToken_length_lt {p a r : Bytes} (hp : peek p 0 ≠ 0)
    (h : getToken .plain p [] = some (a, r)) : r.length < p.length := by
  cases p with
  | nil => exact absurd rfl hp
  | cons c p =>
    have hc : c ≠ 0 := hp
    rw [getToken, if_neg hc] at h
    have hle : ∀ {q arg}, getToken q p arg = some (a, r) → r.length < (c :: p).length := by
      intro q arg h
      have := getToken_length_le h
      simp only [List.length_cons]
      omega
    split_ifs at h
    · cases h
      simp
    · exact hle h
    · exact hle h
    · exact hle h

theorem skipBlanks_length_le (p : Bytes) : (skipBlanks p).length ≤ p.length :=
  (List.dropWhile_suffix _).length_le

end Pink.Redis.Split2args
