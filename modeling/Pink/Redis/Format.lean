import Pink.Redis.Wire

/-! # Formatting a command

`redisFormatCommandArgv` of `redis_cli.cc`, which renders a command as a RESP array of bulk strings.
It first computes the length of the result as an `int`, with `intlen` and `bulklen`, and reserves as
much; a negative length is an exception. As long as the result is shorter than `2 ^ 31` bytes the
computed length is the length of the result (`totlen_eq`), and nothing is thrown. -/

namespace Pink.Redis.Format

open Pink.Redis.Wire

/-! ### The model -/

/-- The loop of `intlen`; an `int` has at most ten digits, which is the fuel. -/
def intlenLoop : ℕ → ℕ → ℕ → ℕ
  | 0, _, len => len
  | n + 1, i, len => if i / 10 = 0 then len + 1 else intlenLoop n (i / 10) (len + 1)

/-- `intlen`: the number of bytes needed to represent an integer as a string. -/
def intlen (i : ℤ) : ℕ := if i < 0 then intlenLoop 10 i.natAbs 1 else intlenLoop 10 i.natAbs 0

/-- `bulklen`; the length is converted to `int` for `intlen`. -/
def bulklen (len : ℕ) : ℕ := 1 + intlen (toInt32 len) + 2 + len + 2

/-- The additions to `totlen`, which is an `int`. -/
def addBulks : ℤ → Argv → ℤ
  | totlen, [] => totlen
  | totlen, a :: argv => addBulks (toInt32 (sizeT (totlen + bulklen a.length))) argv

/-- `totlen` of `redisFormatCommandArgv`. -/
def totlen (argv : Argv) : ℤ := addBulks (1 + intlen (toInt32 argv.length) + 2) argv

/-- One argument on the wire. -/
def bulkBytes (a : Bytes) : Bytes := ch '$' :: (decimalNat a.length ++ [CR, LF] ++ a ++ [CR, LF])

/-- A command on the wire. -/
def commandBytes (argv : Argv) : Bytes :=
  ch '*' :: (decimalNat argv.length ++ [CR, LF] ++ argv.flatMap bulkBytes)

/-- `redisFormatCommandArgv`: `none` is the `std::length_error` of `reserve`. -/
def redisFormatCommandArgv (argv : Argv) : Option Bytes :=
  if totlen argv < 0 then none else some (commandBytes argv)

/-- The commands of a list, one behind the other. -/
def formatAll (cmds : List Argv) : Option Bytes :=
  (cmds.mapM redisFormatCommandArgv).map List.flatten

/-! ### The announced length -/

theorem length_decimalNat (n : ℕ) :
    (decimalNat n).length = if n / 10 = 0 then 1 else (decimalNat (n / 10)).length + 1 := by
  unfold decimalNat
  by_cases h0 : n = 0
  · subst h0; rfl
  rw [if_neg h0]
  by_cases h1 : n / 10 = 0
  · rw [if_pos h1]
    have : n < 10 := by omega
    simp [Nat.digits_of_lt 10 n h0 this]
  · rw [if_neg h1, if_neg h1]
    simp [Nat.digits_def' (show 1 < 10 by norm_num) (Nat.pos_of_ne_zero h0)]

theorem intlenLoop_eq : ∀ (f i len : ℕ), i < 10 ^ f → 0 < f →
    intlenLoop f i len = len + (decimalNat i).length
  | 0, _, _, _, h => by omega
  | f + 1, i, len, hi, _ => by
    rw [intlenLoop, length_decimalNat]
    split_ifs with h
    · rfl
    · have hf : 0 < f := by
        rcases f with _ | f
        · simp at hi; omega
        · omega
      rw [intlenLoop_eq f (i / 10) (len + 1) (by rw [pow_succ] at hi; omega) hf]
      omega

theorem intlen_natCast {n : ℕ} (h : n < 2 ^ 31) : intlen n = (decimalNat n).length := by
  unfold intlen
  rw [if_neg (by omega), Int.natAbs_natCast, intlenLoop_eq 10 n 0 (by omega) (by norm_num)]
  omega

theorem bulklen_eq {a : Bytes} (h : a.length < 2 ^ 31) :
    bulklen a.length = (bulkBytes a).length := by
  unfold bulklen bulkBytes
  rw [toInt32_of_lt h, intlen_natCast h]
  simp only [List.length_cons, List.length_append, List.length_nil]; omega

theorem length_le_bulkBytes (a : Bytes) : a.length + 5 ≤ (bulkBytes a).length := by
  have := List.length_pos_iff.mpr (decimalNat_ne_nil a.length)
  simp only [bulkBytes, List.length_cons, List.length_append, List.length_nil]; omega

theorem addBulks_eq : ∀ (argv : Argv) (t : ℕ), t + (argv.flatMap bulkBytes).length < 2 ^ 31 →
    addBulks t argv = t + (argv.flatMap bulkBytes).length := by
  intro argv
  induction argv with
  | nil =>
    intro t _
    simp [addBulks]
  | cons a argv ih =>
    intro t h
    simp only [List.flatMap_cons, List.length_append] at h
    have ha := length_le_bulkBytes a
    have hcast : ((t : ℤ) + bulklen a.length) = ((t + (bulkBytes a).length : ℕ) : ℤ) := by
      rw [bulklen_eq (by omega)]; push_cast; rfl
    have hstep : toInt32 (sizeT (t + bulklen a.length)) = (t + (bulkBytes a).length : ℕ) := by
      rw [hcast, sizeT_of_nonneg (by omega) (by omega), Int.toNat_natCast,
        toInt32_of_lt (by omega)]
    rw [addBulks, hstep, ih _ (by omega)]
    simp only [List.flatMap_cons, List.length_append]; push_cast; ring

theorem length_le_flatMap : ∀ argv : Argv, argv.length ≤ (argv.flatMap bulkBytes).length
  | [] => by simp
  | a :: argv => by
    have := length_le_bulkBytes a
    have := length_le_flatMap argv
    simp only [List.flatMap_cons, List.length_append, List.length_cons]; omega

theorem length_commandBytes (argv : Argv) : (commandBytes argv).length =
    (1 + (decimalNat argv.length).length + 2) + (argv.flatMap bulkBytes).length := by
  simp only [commandBytes, List.length_cons, List.length_append, List.length_nil]; omega

theorem length_lt_commandBytes (argv : Argv) : argv.length < (commandBytes argv).length := by
  have := length_le_flatMap argv
  rw [length_commandBytes]; omega

/-- **The announced length is the length.** -/
theorem totlen_eq {argv : Argv} (h : (commandBytes argv).length < 2 ^ 31) :
    totlen argv = (commandBytes argv).length := by
  have hc := length_lt_commandBytes argv
  have hl := length_commandBytes argv
  unfold totlen
  rw [toInt32_of_lt (by omega), intlen_natCast (by omega)]
  have := addBulks_eq argv (1 + (decimalNat argv.length).length + 2) (by omega)
  rw [hl]; push_cast at this ⊢; exact this

theorem redisFormatCommandArgv_eq {argv : Argv} (h : (commandBytes argv).length < 2 ^ 31) :
    redisFormatCommandArgv argv = some (commandBytes argv) := by
  rw [redisFormatCommandArgv, if_neg (by rw [totlen_eq h]; omega)]

theorem formatAll_eq {cmds : List Argv} (h : (cmds.flatMap commandBytes).length < 2 ^ 31) :
    formatAll cmds = some (cmds.flatMap commandBytes) := by
  have hm : cmds.mapM redisFormatCommandArgv = some (cmds.map commandBytes) := by
    induction cmds with
    | nil => rfl
    | cons c cmds ih =>
      simp only [List.flatMap_cons, List.length_append] at h
      rw [List.mapM_cons, redisFormatCommandArgv_eq (by omega), ih (by omega)]
      rfl
  rw [formatAll, hm, List.flatMap_def]; rfl

end Pink.Redis.Format
