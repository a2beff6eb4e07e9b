import Pink.Redis.Tokens

/-! # Quoted arguments

How a client writes an argument in double quotes, and what the tokenizer makes of it. A byte that has
no escape of its own and is not printable is written as `\xHH`. `HexDigitToInt32` takes the letters
`a` to `f` for `0` to `5`, so that such a byte is read back only if its hexadecimal digits are
decimal ones (`split2args_quoted_iff`). -/

namespace Pink.Redis.Quoted

open Pink.Redis.Wire Pink.Redis.Split2args Pink.Redis.Tokens

/-! ### Writing -/

def isprint (c : UInt8) : Bool := 32 ≤ c && c ≤ 126

/-- A hexadecimal digit; the letters in either case. -/
def hexDigit (upper : Bool) (d : ℕ) : UInt8 :=
  if d < 10 then UInt8.ofNat ((ch '0').toNat + d)
  else UInt8.ofNat ((if upper then ch 'A' else ch 'a').toNat + (d - 10))

/-- The letter of a byte that has an escape of its own. -/
def escapeLetter (c : UInt8) : Option UInt8 :=
  if c = backslash ∨ c = dquote then some c
  else if c = 10 then some (ch 'n')
  else if c = 13 then some (ch 'r')
  else if c = 9 then some (ch 't')
  else if c = 7 then some (ch 'a')
  else if c = 8 then some (ch 'b')
  else none

/-- The byte is written as `\xHH`. -/
def hexEscaped (c : UInt8) : Bool := escapeLetter c = none ∧ ¬isprint c

/-- A byte, and the cases of the two digits if it is written as `\xHH`. -/
abbrev Spelled := UInt8 × Bool × Bool

def quoteByte (x : Spelled) : Bytes :=
  match escapeLetter x.1 with
  | some c => [backslash, c]
  | none =>
    if isprint x.1 then [x.1]
    else [backslash, ch 'x', hexDigit x.2.1 (x.1.toNat / 16), hexDigit x.2.2 (x.1.toNat % 16)]

def quote (s : List Spelled) : Bytes := dquote :: (s.flatMap quoteByte ++ [dquote])

/-- The quoted arguments, with single blanks between them. -/
def quoteAll (args : List (List Spelled)) : Bytes := [32].intercalate (args.map quote)

/-! ### Reading -/

/-- What `HexDigitToInt32` makes of a digit. -/
def readDigit (d : ℕ) : ℕ := if d < 10 then d else d - 10

/-- What is read back. -/
def reread (c : UInt8) : UInt8 :=
  if hexEscaped c then UInt8.ofNat (readDigit (c.toNat / 16) * 16 + readDigit (c.toNat % 16)) else c

theorem isHexDigit_hexDigit : ∀ (upper : Bool), ∀ d < 16, isHexDigit (hexDigit upper d) = true := by
  decide

theorem hexDigitToInt32_hexDigit : ∀ (upper : Bool), ∀ d < 16,
    hexDigitToInt32 (hexDigit upper d) = readDigit d := by
  decide

/-- A statement about all bytes. -/
theorem forall_byte {P : UInt8 → Prop} (h : ∀ n < 256, P (UInt8.ofNat n)) (c : UInt8) : P c := by
  have := h c.toNat c.toNat_lt
  rwa [UInt8.ofNat_toNat] at this

theorem escapeLetter_spec {c d : UInt8} (h : escapeLetter c = some d) :
    d ≠ 0 ∧ d ≠ ch 'x' ∧ unescape d = c := by
  unfold escapeLetter at h
  split_ifs at h with h1 h2 h3 h4 h5 h6
  · obtain rfl := Option.some.inj h
    rcases h1 with rfl | rfl <;> decide
  all_goals
    subst_vars
    obtain rfl := Option.some.inj h
    decide

theorem isprint_ne {c : UInt8} (h : isprint c = true) (hn : escapeLetter c = none) :
    c ≠ 0 ∧ c ≠ backslash ∧ c ≠ dquote := by
  refine ⟨?_, ?_, ?_⟩ <;> rintro rfl
  · exact absurd h (by decide)
  · exact absurd hn (by decide)
  · exact absurd hn (by decide)

/-- **One byte.** -/
theorem getToken_quoteByte (x : Spelled) (r arg : Bytes) :
    getToken .inq (quoteByte x ++ r) arg = getToken .inq r (arg ++ [reread x.1]) := by
  obtain ⟨c, u1, u2⟩ := x
  unfold quoteByte reread hexEscaped
  dsimp only
  cases hl : escapeLetter c with
  | some d =>
    obtain ⟨h0, hx, rfl⟩ := escapeLetter_spec hl
    have hesc : ¬(decide (some d = none ∧ ¬isprint (unescape d) = true) = true) := by simp
    rw [if_neg hesc]
    dsimp only [List.cons_append, List.nil_append]
    rw [getToken.eq_def]
    dsimp only
    rw [if_neg (by decide), if_neg (fun h => hx h.2.1), if_pos ⟨rfl, h0⟩]
  | none =>
    dsimp only
    by_cases hp : isprint c = true
    · obtain ⟨h0, hb, hq⟩ := isprint_ne hp hl
      rw [if_pos hp, if_neg (by simp [hp])]
      dsimp only [List.cons_append, List.nil_append]
      rw [getToken.eq_def]
      dsimp only
      rw [if_neg h0, if_neg (fun h => hb h.1), if_neg (fun h => hb h.1), if_neg hq]
    · have hlo : c.toNat % 16 < 16 := Nat.mod_lt _ (by norm_num)
      have hhi : c.toNat / 16 < 16 := by
        have := c.toNat_lt
        omega
      rw [if_neg hp, if_pos (by simp [hp])]
      dsimp only [List.cons_append, List.nil_append]
      rw [getToken.eq_def]
      dsimp only
      rw [if_neg (by decide), if_pos ⟨rfl, rfl, isHexDigit_hexDigit u1 _ hhi,
        isHexDigit_hexDigit u2 _ hlo⟩, hexDigitToInt32_hexDigit u1 _ hhi,
        hexDigitToInt32_hexDigit u2 _ hlo]

theorem getToken_quoteBytes : ∀ (s : List Spelled) (r arg : Bytes),
    getToken .inq (s.flatMap quoteByte ++ r) arg =
      getToken .inq r (arg ++ s.map fun x => reread x.1)
  | [], r, arg => by simp
  | x :: s, r, arg => by
    rw [List.flatMap_cons, List.append_assoc, getToken_quoteByte, getToken_quoteBytes s]
    simp

/-- **One argument**, with a blank or nothing behind it. -/
theorem getToken_quote (s : List Spelled) {r : Bytes} (hr : peek r 0 = 0 ∨ isspace (peek r 0)) :
    getToken .plain (quote s ++ r) [] = some (s.map fun x => reread x.1, r) := by
  have hend : ¬(peek r 0 ≠ 0 ∧ ¬isspace (peek r 0) = true) := by tauto
  rw [quote, List.cons_append, getToken, if_neg (by decide), if_neg (by decide), if_pos rfl,
    List.append_assoc, getToken_quoteBytes, List.nil_append, List.singleton_append,
    getToken.eq_def]
  dsimp only
  rw [if_neg (by decide), if_neg (fun h => absurd h.1 (by decide)),
    if_neg (fun h => absurd h.1 (by decide)), if_pos rfl, if_neg hend]

theorem skipBlanks_quote (s : List Spelled) (r : Bytes) :
    skipBlanks (quote s ++ r) = quote s ++ r := rfl

theorem split2args_quote (s : List Spelled) {r : Bytes} (hr : peek r 0 = 0 ∨ isspace (peek r 0)) :
    split2args (quote s ++ r) = (split2args r).map ((s.map fun x => reread x.1) :: ·) := by
  have h : peek (skipBlanks (quote s ++ r)) 0 ≠ 0 := by
    rw [skipBlanks_quote]
    exact show dquote ≠ 0 by decide
  rw [split2args_token h, skipBlanks_quote, getToken_quote s hr]
  rfl

/-- What the tokenizer makes of quoted arguments. -/
theorem split2args_quoteAll : ∀ args : List (List Spelled),
    split2args (quoteAll args) = some (args.map fun s => s.map fun x => reread x.1)
  | [] => rfl
  | [s] => by
    have := split2args_quote s (r := []) (.inl rfl)
    rw [List.append_nil] at this
    rw [quoteAll, List.map_singleton, List.intercalate_singleton, this]
    rfl
  | s :: s' :: args => by
    have hsplit : quoteAll (s :: s' :: args) = quote s ++ 32 :: quoteAll (s' :: args) := by
      simp [quoteAll, List.intercalate]
    have hblank : split2args (32 :: quoteAll (s' :: args)) = split2args (quoteAll (s' :: args)) :=
      split2args_skipBlanks rfl
    rw [hsplit, split2args_quote s (.inr rfl), hblank, split2args_quoteAll (s' :: args)]
    rfl

/-! ### The round trip -/

/-- The hexadecimal digits of a byte that is written with them are decimal ones. -/
def Decimal (c : UInt8) : Prop := hexEscaped c = true → c.toNat / 16 < 10 ∧ c.toNat % 16 < 10

instance : DecidablePred Decimal := fun _ => inferInstanceAs (Decidable (_ → _))

theorem reread_eq_iff (c : UInt8) : reread c = c ↔ Decimal c :=
  forall_byte (P := fun c => reread c = c ↔ Decimal c) (by decide +kernel) c

/-- **Quoted arguments are read back** exactly when no byte is written with a hexadecimal letter. -/
theorem split2args_quoted_iff (args : List (List Spelled)) :
    split2args (quoteAll args) = some (args.map fun s => s.map Prod.fst) ↔
      ∀ s ∈ args, ∀ x ∈ s, Decimal x.1 := by
  rw [split2args_quoteAll, Option.some.injEq]
  simp only [List.map_inj_left, reread_eq_iff]

/-- The byte `0xab`. -/
theorem not_split2args_quoted :
    split2args (quoteAll [[(0xab, false, true)]]) ≠ some [[0xab]] := by
  decide +kernel

end Pink.Redis.Quoted
