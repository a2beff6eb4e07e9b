import Mathlib.Data.List.GetD
import Pink.Lib.Reads
import Pink.Redis.Tokens

/-! # The inline tokenizer with its pointers

`split2args` on the memory behind `req_buf`: `p` is a position, and every read through it is recorded,
in the order and with the short circuits of the source. Up to the first NUL each part reads nothing
behind it and computes what its counterpart of `Split2args`, which cuts the text as a list, computes.

So the tokenizer stays inside its string, and returns `-1` exactly if the quotes of the string are
wrong (`split2args_stays`). What that means is said without the tokenizer (`Misquoted`): the bytes
are gone through with a mode that tells whether they are quoted or escaped. -/

namespace Pink.Redis.Pointers

open Pink.Redis.Wire Pink.Lib.Reads Pink.Redis.Tokens
open Pink.Redis.Split2args (peek isspace isHexDigit hexDigitToInt32 unescape backslash dquote squote
  Quote)

/-! ### The model -/

/-- `*(mem + p)`. -/
abbrev read (mem : Bytes) (p : ℕ) : Scan UInt8 := ⟨peek mem p, [p]⟩

/-- `while (*p && isspace(*p)) p++;`. Where the fuel of a loop is used up there is no result. -/
def skipBlanks (mem : Bytes) : ℕ → ℕ → Scan (Option ℕ)
  | 0, _ => return none
  | fuel + 1, p => do
    let b ← read mem p
    if b ≠ 0 then
      let b ← read mem p
      if isspace b then skipBlanks mem fuel (p + 1) else return some p
    else return some p

/-- `if (*p) p++;` -/
def advance (mem : Bytes) (p : ℕ) : Scan ℕ := do
  let b ← read mem p
  return if b ≠ 0 then p + 1 else p

/-- `*p == '\\' && *(p+1) == 'x' && IsHexDigit(*(p+2)) && IsHexDigit(*(p+3))` -/
def hexEscape (mem : Bytes) (p : ℕ) : Scan Bool := do
  let b ← read mem p
  if b = backslash then
    let b ← read mem (p + 1)
    if b = ch 'x' then
      let b ← read mem (p + 2)
      if isHexDigit b then
        let b ← read mem (p + 3)
        return isHexDigit b
      else return false
    else return false
  else return false

/-- `*p == '\\'`, and a test of `*(p + 1)`. -/
def escape (mem : Bytes) (test : UInt8 → Bool) (p : ℕ) : Scan Bool := do
  let b ← read mem p
  if b = backslash then
    let b ← read mem (p + 1)
    return test b
  else return false

/-- `*(p+1) && !isspace(*(p+1))` -/
def followed (mem : Bytes) (p : ℕ) : Scan Bool := do
  let b ← read mem (p + 1)
  if b ≠ 0 then
    let b ← read mem (p + 1)
    return !isspace b
  else return false

/-- How a turn of the inner loop ends. -/
inductive Turn
  | next (q : Quote) (p : ℕ) (arg : Bytes)
  | done (p : ℕ) (arg : Bytes)
  /-- `return -1`. -/
  | err

/-- The last three branches in quotes, of either kind. -/
def quoted (mem : Bytes) (q : Quote) (quote : UInt8) (p : ℕ) (arg : Bytes) : Scan Turn := do
  let b ← read mem p
  if b = quote then
    -- closing quote must be followed by a space or nothing at all
    if ← followed mem p then return .err
    else return .done (← advance mem p) arg
  else
    let b ← read mem p
    if b = 0 then return .err
    else
      let b ← read mem p
      return .next q (← advance mem p) (arg ++ [b])

/-- A turn of the inner loop. -/
def turn (mem : Bytes) : Quote → ℕ → Bytes → Scan Turn
  | .inq, p, arg => do
    if ← hexEscape mem p then
      let h1 ← read mem (p + 2)
      let h2 ← read mem (p + 3)
      return .next .inq (← advance mem (p + 3))
        (arg ++ [UInt8.ofNat (hexDigitToInt32 h1 * 16 + hexDigitToInt32 h2)])
    else if ← escape mem (· ≠ 0) p then
      let b ← read mem (p + 1)
      return .next .inq (← advance mem (p + 1)) (arg ++ [unescape b])
    else quoted mem .inq dquote p arg
  | .insq, p, arg => do
    if ← escape mem (· = squote) p then
      return .next .insq (← advance mem (p + 1)) (arg ++ [squote])
    else quoted mem .insq squote p arg
  | .plain, p, arg => do
    let b ← read mem p
    if b = 32 ∨ b = 10 ∨ b = 13 ∨ b = 9 ∨ b = 0 then return .done (← advance mem p) arg
    else if b = dquote then return .next .inq (← advance mem p) arg
    else if b = squote then return .next .insq (← advance mem p) arg
    else return .next .plain (← advance mem p) (arg ++ [b])

/-- The inner loop: the token and `p` behind it, or `none` where `-1` is returned. -/
def getToken (mem : Bytes) : ℕ → Quote → ℕ → Bytes → Scan (Option (Option (Bytes × ℕ)))
  | 0, _, _, _ => return none
  | fuel + 1, q, p, arg => do
    match ← turn mem q p arg with
    | .next q p arg => getToken mem fuel q p arg
    | .done p arg => return some (some (arg, p))
    | .err => return some none

/-- The outer loop: the return value, and `argv`. -/
def split2argsLoop (mem : Bytes) : ℕ → ℕ → Argv → Scan (Option (ℤ × Argv))
  | 0, _, _ => return none
  | fuel + 1, p, argv => do
    match ← skipBlanks mem (mem.length + 1) p with
    | none => return none
    | some p =>
      let b ← read mem p
      if b ≠ 0 then
        match ← getToken mem (mem.length + 1) .plain p [] with
        | none => return none
        | some (some (arg, p)) => split2argsLoop mem fuel p (argv ++ [arg])
        | some none => return some (-1, [])
      else return some (0, argv)

def split2args (mem : Bytes) (argv : Argv) : Scan (Option (ℤ × Argv)) :=
  split2argsLoop mem (mem.length + 1) 0 argv

/-! ### Reading up to the NUL -/

section Spec
variable {mem : Bytes} {p n : ℕ}

/-- The first NUL is at `n`. -/
structure Ends (mem : Bytes) (n : ℕ) : Prop where
  lt : n < mem.length
  nul : peek mem n = 0
  ne_nul : ∀ p < n, peek mem p ≠ 0

theorem ends_idxOf (h : 0 ∈ mem) : Ends mem (mem.idxOf 0) := by
  have hlt := List.idxOf_lt_length_of_mem h
  refine ⟨hlt, ?_, fun p hp => ?_⟩
  · rw [peek, List.getD_eq_getElem _ _ hlt]
    exact List.getElem_idxOf hlt
  · rw [peek, List.getD_eq_getElem _ _ (hp.trans hlt)]
    simpa using List.not_of_lt_findIdx hp

theorem Ends.lt_of_ne (h : Ends mem n) (hp : p ≤ n) (hne : peek mem p ≠ 0) : p < n := by
  refine lt_of_le_of_ne hp fun he => hne ?_
  rw [he, h.nul]

theorem Ends.lt_of_eq (h : Ends mem n) (hp : p ≤ n) {b : UInt8} (hb : peek mem p = b)
    (h0 : b ≠ 0) : p < n := h.lt_of_ne hp (hb ▸ h0)

theorem Ends.drop (h : Ends mem n) (hp : p ≤ n) :
    mem.drop p = peek mem p :: mem.drop (p + 1) := by
  have hlt : p < mem.length := hp.trans_lt h.lt
  rw [peek, List.getD_eq_getElem _ _ hlt]
  exact List.drop_eq_getElem_cons hlt

@[simp] theorem peek_drop (i : ℕ) : peek (mem.drop p) i = peek mem (p + i) := by
  simp [peek, List.getD_eq_getElem?_getD]

theorem read_within (hp : p ≤ n) : (read mem p).Within n := by
  intro i hi
  obtain rfl : i = p := List.mem_singleton.mp hi
  exact hp

theorem advance_within (hp : p ≤ n) : (advance mem p).Within n :=
  (read_within hp).bind (Scan.within_pure n _)

@[simp] theorem advance_val : (advance mem p).val = if peek mem p ≠ 0 then p + 1 else p := rfl

/-- `p` moves on, and stays in front of the NUL. -/
theorem Ends.advance_le (h : Ends mem n) (hp : p ≤ n) : (advance mem p).val ≤ n := by
  rw [advance_val]
  split_ifs with hne
  · exact h.lt_of_ne hp hne
  · exact hp

/-- A test of one byte that is only made if another one has been successful. -/
theorem within_ite {c : Prop} [Decidable c] {α : Type} {x y : Scan α} (hx : c → x.Within n)
    (hy : ¬c → y.Within n) : (if c then x else y).Within n := by
  split_ifs with hc
  · exact hx hc
  · exact hy hc

theorem hexEscape_within (h : Ends mem n) (hp : p ≤ n) : (hexEscape mem p).Within n := by
  refine (read_within hp).bind (within_ite (fun hb => ?_) fun _ => Scan.within_pure n _)
  have hp1 : p < n := h.lt_of_eq hp hb (by decide)
  refine (read_within hp1).bind (within_ite (fun hx => ?_) fun _ => Scan.within_pure n _)
  have hp2 : p + 1 < n := h.lt_of_eq hp1 hx (by decide)
  refine (read_within hp2).bind (within_ite (fun hh => ?_) fun _ => Scan.within_pure n _)
  have hp3 : p + 2 < n := h.lt_of_ne hp2 (isHexDigit_ne hh).1
  exact (read_within hp3).bind (Scan.within_pure n _)

theorem hexEscape_val : (hexEscape mem p).val = true ↔ peek mem p = backslash ∧
    peek mem (p + 1) = ch 'x' ∧ isHexDigit (peek mem (p + 2)) = true ∧
      isHexDigit (peek mem (p + 3)) = true := by
  simp only [hexEscape, Scan.val_bind, apply_ite Scan.val, Scan.val_pure]
  split_ifs <;> simp [*]

theorem escape_within (h : Ends mem n) (hp : p ≤ n) (test : UInt8 → Bool) :
    (escape mem test p).Within n := by
  refine (read_within hp).bind (within_ite (fun hb => ?_) fun _ => Scan.within_pure n _)
  have hp1 : p < n := h.lt_of_eq hp hb (by decide)
  exact (read_within hp1).bind (Scan.within_pure n _)

theorem escape_val {test : UInt8 → Bool} : (escape mem test p).val = true ↔
    peek mem p = backslash ∧ test (peek mem (p + 1)) = true := by
  simp only [escape, Scan.val_bind, apply_ite Scan.val, Scan.val_pure]
  split_ifs with hb <;> simp [*]

theorem followed_within (hp : p < n) : (followed mem p).Within n :=
  (read_within hp).bind <| within_ite (fun _ => (read_within hp).bind (Scan.within_pure n _))
    fun _ => Scan.within_pure n _

theorem followed_val : (followed mem p).val = true ↔
    peek mem (p + 1) ≠ 0 ∧ ¬isspace (peek mem (p + 1)) = true := by
  simp only [followed, Scan.val_bind, apply_ite Scan.val, Scan.val_pure]
  split_ifs with hb <;> simp [*]

/-! ### A turn -/

/-- A turn from `p`, against the token that the rest of the text begins with. -/
def Turns (mem : Bytes) (n : ℕ) (q : Quote) (p : ℕ) (arg : Bytes) : Turn → Prop
  | .next q' p' arg' => p < p' ∧ p' ≤ n ∧ Split2args.getToken q (mem.drop p) arg =
      Split2args.getToken q' (mem.drop p') arg'
  | .done p' arg' => p ≤ p' ∧ p' ≤ n ∧
      Split2args.getToken q (mem.drop p) arg = some (arg', mem.drop p')
  | .err => Split2args.getToken q (mem.drop p) arg = none

/-- What the last three branches do with the byte at `p`. -/
def Quoted (mem : Bytes) (q : Quote) (quote : UInt8) (p : ℕ) (arg : Bytes) : Prop :=
  Split2args.getToken q (mem.drop p) arg =
    if peek mem p = 0 then none
    else if peek mem p = quote then
      if peek mem (p + 1) ≠ 0 ∧ ¬isspace (peek mem (p + 1)) = true then none
      else some (arg, mem.drop (p + 1))
    else Split2args.getToken q (mem.drop (p + 1)) (arg ++ [peek mem p])

theorem quoted_inq (h : Ends mem n) (hp : p ≤ n) (arg : Bytes)
    (hx : (hexEscape mem p).val = false) (he : (escape mem (· ≠ 0) p).val = false) :
    Quoted mem .inq dquote p arg := by
  rw [← Bool.not_eq_true, hexEscape_val] at hx
  rw [← Bool.not_eq_true, escape_val, decide_eq_true_eq] at he
  unfold Quoted
  rw [h.drop hp, Split2args.getToken.eq_def]
  simp only [peek_drop, Nat.add_zero, add_assoc, Nat.reduceAdd, hx, he, if_false]

theorem quoted_insq (h : Ends mem n) (hp : p ≤ n) (arg : Bytes)
    (he : (escape mem (· = squote) p).val = false) : Quoted mem .insq squote p arg := by
  rw [← Bool.not_eq_true, escape_val, decide_eq_true_eq] at he
  unfold Quoted
  rw [h.drop hp, Split2args.getToken.eq_def]
  simp only [peek_drop, Nat.add_zero, he, if_false]

theorem quoted_spec (h : Ends mem n) (hp : p ≤ n) {q : Quote} {quote : UInt8} {arg : Bytes}
    (h0 : quote ≠ 0) (hg : Quoted mem q quote p arg) :
    (quoted mem q quote p arg).Within n ∧ Turns mem n q p arg (quoted mem q quote p arg).val := by
  unfold Quoted at hg
  have hle := h.advance_le hp
  constructor
  · refine (read_within hp).bind (within_ite (fun hb => ?_) fun _ => ?_)
    · have hlt : p < n := h.lt_of_eq hp hb h0
      refine (followed_within hlt).bind (within_ite (fun _ => Scan.within_pure n _) fun _ => ?_)
      exact (advance_within hp).bind (Scan.within_pure n _)
    · refine (read_within hp).bind (within_ite (fun _ => Scan.within_pure n _) fun _ => ?_)
      exact (read_within hp).bind ((advance_within hp).bind (Scan.within_pure n _))
  · simp only [quoted, Scan.val_bind, apply_ite Scan.val, Scan.val_pure, followed_val]
    rw [advance_val] at hle ⊢
    by_cases hz : peek mem p = 0
    · rw [if_neg (by rw [hz]; exact h0.symm), if_pos hz]
      rw [if_pos hz] at hg
      exact hg
    rw [if_neg hz] at hg
    rw [if_pos hz] at hle ⊢
    by_cases hq : peek mem p = quote
    · rw [if_pos hq] at hg ⊢
      split_ifs at hg ⊢
      · exact hg
      · exact ⟨Nat.le_succ p, hle, hg⟩
    · rw [if_neg hq] at hg ⊢
      rw [if_neg hz]
      exact ⟨Nat.lt_succ_self p, hle, hg⟩

/-- The turn ends with `p` at a byte that is not the NUL. -/
theorem next_spec (h : Ends mem n) {q q' : Quote} {arg arg' : Bytes} {p' : ℕ} (hp : p ≤ p')
    (hp' : p' < n) (hg : Split2args.getToken q (mem.drop p) arg =
      Split2args.getToken q' (mem.drop (p' + 1)) arg') :
    (advance mem p' >>= fun p => pure (Turn.next q' p arg')).Within n ∧
      Turns mem n q p arg (advance mem p' >>= fun p => pure (Turn.next q' p arg')).val := by
  refine ⟨(advance_within hp'.le).bind (Scan.within_pure n _), ?_⟩
  rw [Scan.val_bind, advance_val, if_pos (h.ne_nul p' hp')]
  exact ⟨Nat.lt_succ_of_le hp, hp', hg⟩

theorem getToken_hex (h : Ends mem n) (hp : p ≤ n) (arg : Bytes)
    (hx : (hexEscape mem p).val = true) : p + 3 < n ∧
      Split2args.getToken .inq (mem.drop p) arg =
        Split2args.getToken .inq (mem.drop (p + 3 + 1)) (arg ++ [UInt8.ofNat
          (hexDigitToInt32 (peek mem (p + 2)) * 16 + hexDigitToInt32 (peek mem (p + 3)))]) := by
  obtain ⟨hb, hc, hd, he⟩ := hexEscape_val.mp hx
  have hp1 : p < n := h.lt_of_eq hp hb (by decide)
  have hp2 : p + 1 < n := h.lt_of_eq hp1 hc (by decide)
  have hp3 : p + 2 < n := h.lt_of_ne hp2 (isHexDigit_ne hd).1
  refine ⟨h.lt_of_ne hp3 (isHexDigit_ne he).1, ?_⟩
  have hcond : peek mem p = backslash ∧ peek (mem.drop (p + 1)) 0 = ch 'x' ∧
      isHexDigit (peek (mem.drop (p + 1)) 1) = true ∧
        isHexDigit (peek (mem.drop (p + 1)) 2) = true := by
    rw [peek_drop, peek_drop, peek_drop]
    exact ⟨hb, hc, hd, he⟩
  rw [h.drop hp, Split2args.getToken.eq_def]
  dsimp only
  rw [if_neg (h.ne_nul p hp1), if_pos hcond, h.drop hp1, h.drop hp2, h.drop hp3]

theorem getToken_escape (h : Ends mem n) (hp : p ≤ n) (arg : Bytes)
    (hx : (hexEscape mem p).val = false) (he : (escape mem (· ≠ 0) p).val = true) : p + 1 < n ∧
      Split2args.getToken .inq (mem.drop p) arg =
        Split2args.getToken .inq (mem.drop (p + 1 + 1)) (arg ++ [unescape (peek mem (p + 1))]) := by
  rw [escape_val, decide_eq_true_eq] at he
  rw [← Bool.not_eq_true, hexEscape_val] at hx
  have hp1 : p < n := h.lt_of_eq hp he.1 (by decide)
  refine ⟨h.lt_of_ne hp1 he.2, ?_⟩
  rw [h.drop hp, Split2args.getToken.eq_def]
  dsimp only
  rw [if_neg (h.ne_nul p hp1)]
  simp only [peek_drop, Nat.add_zero, add_assoc, Nat.reduceAdd, hx, if_false]
  rw [if_pos he, h.drop hp1]

theorem getToken_squote (h : Ends mem n) (hp : p ≤ n) (arg : Bytes)
    (he : (escape mem (· = squote) p).val = true) : p + 1 < n ∧
      Split2args.getToken .insq (mem.drop p) arg =
        Split2args.getToken .insq (mem.drop (p + 1 + 1)) (arg ++ [squote]) := by
  rw [escape_val, decide_eq_true_eq] at he
  have hp1 : p < n := h.lt_of_eq hp he.1 (by decide)
  refine ⟨h.lt_of_eq hp1 he.2 (by decide), ?_⟩
  rw [h.drop hp, Split2args.getToken.eq_def]
  dsimp only
  rw [if_neg (h.ne_nul p hp1)]
  simp only [peek_drop, Nat.add_zero]
  rw [if_pos he, h.drop hp1]

theorem turn_inq (h : Ends mem n) (hp : p ≤ n) (arg : Bytes) :
    (turn mem .inq p arg).Within n ∧ Turns mem n .inq p arg (turn mem .inq p arg).val := by
  have hwx := hexEscape_within h hp
  rcases hx : (hexEscape mem p).val with _ | _
  · have hwe := escape_within h hp (· ≠ 0)
    rcases he : (escape mem (· ≠ 0) p).val with _ | _
    · have heq : turn mem .inq p arg = hexEscape mem p >>= fun _ =>
          escape mem (· ≠ 0) p >>= fun _ => quoted mem .inq dquote p arg :=
        Scan.bind_congr ((if_neg (by simp [hx])).trans
          (Scan.bind_congr (if_neg (by rw [he]; exact Bool.false_ne_true))))
      obtain ⟨hw, ht⟩ := quoted_spec h hp (by decide) (quoted_inq h hp arg hx he)
      rw [heq]
      exact ⟨hwx.bind (hwe.bind hw), ht⟩
    · obtain ⟨hp1, hg⟩ := getToken_escape h hp arg hx he
      have heq : turn mem .inq p arg = hexEscape mem p >>= fun _ => escape mem (· ≠ 0) p >>= fun _ =>
          read mem (p + 1) >>= fun b => advance mem (p + 1) >>= fun p =>
            pure (.next .inq p (arg ++ [unescape b])) :=
        Scan.bind_congr ((if_neg (by simp [hx])).trans (Scan.bind_congr (if_pos he)))
      obtain ⟨hw, ht⟩ := next_spec h (Nat.le_succ p) hp1 hg
      rw [heq]
      exact ⟨hwx.bind (hwe.bind ((read_within hp1.le).bind hw)), ht⟩
  · obtain ⟨hp3, hg⟩ := getToken_hex h hp arg hx
    have heq : turn mem .inq p arg = hexEscape mem p >>= fun _ => read mem (p + 2) >>= fun h1 =>
        read mem (p + 3) >>= fun h2 => advance mem (p + 3) >>= fun p => pure (.next .inq p
          (arg ++ [UInt8.ofNat (hexDigitToInt32 h1 * 16 + hexDigitToInt32 h2)])) :=
      Scan.bind_congr (if_pos hx)
    obtain ⟨hw, ht⟩ := next_spec h (Nat.le_add_right p 3) hp3 hg
    rw [heq]
    exact ⟨hwx.bind ((read_within (by omega)).bind ((read_within hp3.le).bind hw)), ht⟩

theorem turn_insq (h : Ends mem n) (hp : p ≤ n) (arg : Bytes) :
    (turn mem .insq p arg).Within n ∧ Turns mem n .insq p arg (turn mem .insq p arg).val := by
  have hwe := escape_within h hp (· = squote)
  rcases he : (escape mem (· = squote) p).val with _ | _
  · have heq : turn mem .insq p arg = escape mem (· = squote) p >>= fun _ =>
        quoted mem .insq squote p arg := Scan.bind_congr (if_neg (by simp [he]))
    obtain ⟨hw, ht⟩ := quoted_spec h hp (by decide) (quoted_insq h hp arg he)
    rw [heq]
    exact ⟨hwe.bind hw, ht⟩
  · obtain ⟨hp1, hg⟩ := getToken_squote h hp arg he
    have heq : turn mem .insq p arg = escape mem (· = squote) p >>= fun _ =>
        advance mem (p + 1) >>= fun p => pure (.next .insq p (arg ++ [squote])) :=
      Scan.bind_congr (if_pos he)
    obtain ⟨hw, ht⟩ := next_spec h (Nat.le_succ p) hp1 hg
    rw [heq]
    exact ⟨hwe.bind hw, ht⟩

theorem turn_plain (h : Ends mem n) (hp : p ≤ n) (arg : Bytes) :
    (turn mem .plain p arg).Within n ∧ Turns mem n .plain p arg (turn mem .plain p arg).val := by
  constructor
  · have hdone : ∀ f : ℕ → Turn, (advance mem p >>= fun p => pure (f p)).Within n :=
      fun f => (advance_within hp).bind (Scan.within_pure n _)
    exact (read_within hp).bind (within_ite (fun _ => hdone _) fun _ => within_ite (fun _ => hdone _)
      fun _ => within_ite (fun _ => hdone _) fun _ => hdone _)
  simp only [turn, Scan.val_bind, apply_ite Scan.val, Scan.val_pure, advance_val]
  have hdrop := h.drop hp
  by_cases hz : peek mem p = 0
  · rw [if_pos (by simp [hz]), if_neg (not_not.mpr hz)]
    refine ⟨le_rfl, hp, ?_⟩
    rw [hdrop, Split2args.getToken, if_pos hz]
  have hlt : p < n := h.lt_of_ne hp hz
  rw [if_pos hz]
  split_ifs with hblank hd hs
  · refine ⟨Nat.le_succ p, hlt, ?_⟩
    rw [hdrop, Split2args.getToken, if_neg hz, if_pos (by tauto)]
  all_goals refine ⟨Nat.lt_succ_self p, hlt, ?_⟩
  all_goals rw [hdrop, Split2args.getToken, if_neg hz, if_neg (by tauto)]
  · rw [if_pos hd]
  · rw [if_neg hd, if_pos hs]
  · rw [if_neg hd, if_neg hs]

/-- **A turn** stays in the string, and does what the tokenizer does. -/
theorem turn_spec (h : Ends mem n) (hp : p ≤ n) (q : Quote) (arg : Bytes) :
    (turn mem q p arg).Within n ∧ Turns mem n q p arg (turn mem q p arg).val := by
  cases q with
  | inq => exact turn_inq h hp arg
  | insq => exact turn_insq h hp arg
  | plain => exact turn_plain h hp arg

/-! ### The loops -/

/-- **A token**: the loop ends, in the string, with the token the tokenizer finds. -/
theorem getToken_spec (h : Ends mem n) : ∀ (fuel : ℕ) {p : ℕ} (q : Quote) (arg : Bytes), p ≤ n →
    n < p + fuel → (getToken mem fuel q p arg).Within n ∧
      ∃ r, (getToken mem fuel q p arg).val = some r ∧ (∀ x ∈ r, x.2 ≤ n) ∧
        Split2args.getToken q (mem.drop p) arg = r.map fun x => (x.1, mem.drop x.2)
  | 0, p, q, arg, hp, hf => by omega
  | fuel + 1, p, q, arg, hp, hf => by
    obtain ⟨hw, ht⟩ := turn_spec h hp q arg
    rcases hv : (turn mem q p arg).val with ⟨q', p', arg'⟩ | ⟨p', arg'⟩ | _ <;> rw [hv] at ht
    · obtain ⟨hlt, hp', hg⟩ := ht
      obtain ⟨hw', r, hr, hle, hg'⟩ := getToken_spec h fuel q' arg' hp' (by omega)
      have heq : getToken mem (fuel + 1) q p arg =
          turn mem q p arg >>= fun _ => getToken mem fuel q' p' arg' :=
        Scan.bind_congr (by rw [hv])
      rw [heq]
      exact ⟨hw.bind hw', r, hr, hle, hg.trans hg'⟩
    · obtain ⟨-, hp', hg⟩ := ht
      have heq : getToken mem (fuel + 1) q p arg =
          turn mem q p arg >>= fun _ => pure (some (some (arg', p'))) := Scan.bind_congr (by rw [hv])
      rw [heq]
      refine ⟨hw.bind (Scan.within_pure n _), some (arg', p'), rfl, fun x hx => ?_, hg⟩
      rw [← Option.some.inj hx]
      exact hp'
    · have heq : getToken mem (fuel + 1) q p arg =
          turn mem q p arg >>= fun _ => pure (some none) := Scan.bind_congr (by rw [hv])
      rw [heq]
      exact ⟨hw.bind (Scan.within_pure n _), none, rfl, fun _ hx => (nomatch hx), ht⟩

theorem skipBlanks_spec (h : Ends mem n) : ∀ (fuel : ℕ) {p : ℕ}, p ≤ n → n < p + fuel →
    (skipBlanks mem fuel p).Within n ∧ ∃ p', (skipBlanks mem fuel p).val = some p' ∧ p' ≤ n ∧
      Split2args.skipBlanks (mem.drop p) = mem.drop p'
  | 0, p, hp, hf => by omega
  | fuel + 1, p, hp, hf => by
    unfold Split2args.skipBlanks
    rw [h.drop hp, List.dropWhile_cons]
    by_cases hc : peek mem p ≠ 0 ∧ isspace (peek mem p) = true
    · have hlt : p < n := h.lt_of_ne hp hc.1
      obtain ⟨hw, p', hv, hp', hd⟩ := skipBlanks_spec h fuel hlt (by omega)
      have heq : skipBlanks mem (fuel + 1) p = read mem p >>= fun _ => read mem p >>= fun _ =>
          skipBlanks mem fuel (p + 1) :=
        Scan.bind_congr ((if_pos hc.1).trans (Scan.bind_congr (if_pos hc.2)))
      rw [heq, if_pos (by simpa using hc)]
      exact ⟨(read_within hp).bind ((read_within hp).bind hw), p', hv, hp', hd⟩
    · rw [if_neg (by simpa using hc), ← h.drop hp]
      by_cases hz : peek mem p = 0
      · have heq : skipBlanks mem (fuel + 1) p = read mem p >>= fun _ => pure (some p) :=
          Scan.bind_congr (if_neg (not_not.mpr hz))
        rw [heq]
        exact ⟨(read_within hp).bind (Scan.within_pure n _), p, rfl, hp, rfl⟩
      · have heq : skipBlanks mem (fuel + 1) p = read mem p >>= fun _ => read mem p >>= fun _ =>
            pure (some p) :=
          Scan.bind_congr ((if_pos hz).trans (Scan.bind_congr (if_neg fun hs => hc ⟨hz, hs⟩)))
        rw [heq]
        exact ⟨(read_within hp).bind ((read_within hp).bind (Scan.within_pure n _)), p, rfl, hp, rfl⟩

/-- The return value and `argv`, which is cleared where `-1` is returned. -/
def returned : Option Argv → ℤ × Argv
  | none => (-1, [])
  | some argv => (0, argv)

theorem split2argsLoop_spec (h : Ends mem n) : ∀ (fuel : ℕ) {p : ℕ} (argv : Argv), p ≤ n →
    n < p + fuel → (split2argsLoop mem fuel p argv).Within n ∧
      (split2argsLoop mem fuel p argv).val =
        some (returned (Split2args.split2argsLoop fuel (mem.drop p) argv))
  | 0, p, argv, hp, hf => by omega
  | fuel + 1, p, argv, hp, hf => by
    have hlen := h.lt
    obtain ⟨hws, p₁, hv, hp₁, hskip⟩ := skipBlanks_spec h (mem.length + 1) hp (by omega)
    have hle : p ≤ p₁ := by
      have := Split2args.skipBlanks_length_le (mem.drop p)
      rw [hskip, List.length_drop, List.length_drop] at this
      omega
    have hpeek : peek (mem.drop p₁) 0 = peek mem p₁ := peek_drop 0
    rw [Split2args.split2argsLoop, hskip, hpeek]
    by_cases hz : peek mem p₁ = 0
    · have heq : split2argsLoop mem (fuel + 1) p argv = skipBlanks mem (mem.length + 1) p >>= fun _ =>
          read mem p₁ >>= fun _ => pure (some (0, argv)) :=
        Scan.bind_congr (by rw [hv]; exact Scan.bind_congr (if_neg (not_not.mpr hz)))
      rw [heq, if_pos hz]
      exact ⟨hws.bind ((read_within hp₁).bind (Scan.within_pure n _)), rfl⟩
    rw [if_neg hz]
    obtain ⟨hwt, r, hr, hrle, hg⟩ := getToken_spec h (mem.length + 1) .plain [] hp₁ (by omega)
    rcases r with _ | ⟨arg, p₂⟩
    · have heq : split2argsLoop mem (fuel + 1) p argv = skipBlanks mem (mem.length + 1) p >>= fun _ =>
          read mem p₁ >>= fun _ => getToken mem (mem.length + 1) .plain p₁ [] >>= fun _ =>
            pure (some (-1, [])) :=
        Scan.bind_congr (by
          rw [hv]
          exact Scan.bind_congr ((if_pos hz).trans (Scan.bind_congr (by rw [hr]))))
      rw [heq, hg]
      exact ⟨hws.bind ((read_within hp₁).bind (hwt.bind (Scan.within_pure n _))), rfl⟩
    · have heq : split2argsLoop mem (fuel + 1) p argv = skipBlanks mem (mem.length + 1) p >>= fun _ =>
          read mem p₁ >>= fun _ => getToken mem (mem.length + 1) .plain p₁ [] >>= fun _ =>
            split2argsLoop mem fuel p₂ (argv ++ [arg]) :=
        Scan.bind_congr (by
          rw [hv]
          exact Scan.bind_congr ((if_pos hz).trans (Scan.bind_congr (by rw [hr]))))
      have hp₂ : p₂ ≤ n := hrle _ rfl
      have hlt : p₁ < p₂ := by
        have := Split2args.getToken_length_lt (by rwa [hpeek]) hg
        rw [List.length_drop, List.length_drop] at this
        omega
      obtain ⟨hw, hval⟩ := split2argsLoop_spec h fuel (argv ++ [arg]) hp₂ (by omega)
      rw [heq, hg]
      exact ⟨hws.bind ((read_within hp₁).bind (hwt.bind hw)), hval⟩

/-- **The tokenizer** reads nothing behind the first NUL, and is that of `Split2args`. -/
theorem split2args_spec (h : 0 ∈ mem) (argv : Argv) :
    (split2args mem argv).Within (mem.idxOf 0) ∧ (split2args mem argv).val =
      some (returned ((Split2args.split2args mem).map (argv ++ ·))) := by
  have he := ends_idxOf h
  have hlt := he.lt
  obtain ⟨hw, hv⟩ := split2argsLoop_spec he (mem.length + 1) (p := 0) argv (Nat.zero_le _) (by omega)
  refine ⟨hw, ?_⟩
  rw [split2args, hv, List.drop_zero, split2argsLoop_argv, Split2args.split2args]

end Spec

/-! ### Quotes -/

/-- Whether the next byte is in quotes, and whether a backslash is in front of it. -/
inductive Mode
  | plain | inq | inqEscaped | insq | insqEscaped
  deriving DecidableEq, Repr

namespace Mode

/-- The mode behind a byte. In single quotes a backslash only protects a single quote. -/
def next : Mode → UInt8 → Mode
  | .plain, b => if b = dquote then .inq else if b = squote then .insq else .plain
  | .inq, b => if b = backslash then .inqEscaped else if b = dquote then .plain else .inq
  | .inqEscaped, _ => .inq
  | .insq, b => if b = backslash then .insqEscaped else if b = squote then .plain else .insq
  | .insqEscaped, b => if b = backslash then .insqEscaped else .insq

/-- The byte is a closing quote. -/
def Closes (m : Mode) (b : UInt8) : Prop := m = .inq ∧ b = dquote ∨ m = .insq ∧ b = squote

/-- The mode behind a text. -/
def after (m : Mode) (text : Bytes) : Mode := text.foldl next m

end Mode

open Mode

/-- A closing quote that is followed by something that is not a blank. -/
def BadClose (m : Mode) (text : Bytes) : Prop :=
  ∃ i b c, text[i]? = some b ∧ (m.after (text.take i)).Closes b ∧ text[i + 1]? = some c ∧
    ¬isspace c = true

/-- A quoted token is unterminated, or its closing quote is followed by something else than a
blank. -/
def Misquoted (text : Bytes) : Prop := Mode.plain.after text ≠ .plain ∨ BadClose .plain text

/-- From a mode on, every quote is terminated and followed by a blank or by nothing. -/
def Balanced (m : Mode) (text : Bytes) : Prop := m.after text = .plain ∧ ¬BadClose m text

section Quotes
variable {m : Mode} {b : UInt8} {text rest : Bytes}

theorem misquoted_iff : Misquoted text ↔ ¬Balanced .plain text := by
  unfold Misquoted Balanced
  tauto

theorem badClose_cons : BadClose m (b :: text) ↔
    m.Closes b ∧ (∃ c, text.head? = some c ∧ ¬isspace c = true) ∨ BadClose (m.next b) text := by
  constructor
  · rintro ⟨i, d, c, hd, hclose, hc, hs⟩
    cases i with
    | zero =>
      obtain rfl : b = d := by simpa using hd
      exact Or.inl ⟨hclose, c, by simpa [List.head?_eq_getElem?] using hc, hs⟩
    | succ i => exact Or.inr ⟨i, d, c, by simpa using hd, hclose, by simpa using hc, hs⟩
  · rintro (⟨hclose, c, hc, hs⟩ | ⟨i, d, c, hd, hclose, hc, hs⟩)
    · exact ⟨0, b, c, rfl, hclose, by simpa [List.head?_eq_getElem?] using hc, hs⟩
    · exact ⟨i + 1, d, c, by simpa using hd, hclose, by simpa using hc, hs⟩

/-- Byte by byte. -/
theorem balanced_cons : Balanced m (b :: text) ↔
    (m.Closes b → ∀ c, text.head? = some c → isspace c = true) ∧ Balanced (m.next b) text := by
  unfold Balanced
  rw [badClose_cons, not_or]
  have hafter : m.after (b :: text) = (m.next b).after text := rfl
  rw [hafter]
  constructor
  · rintro ⟨hm, hn, hb⟩
    refine ⟨fun hclose c hc => ?_, hm, hb⟩
    by_contra hs
    exact hn ⟨hclose, c, hc, hs⟩
  · rintro ⟨hn, hm, hb⟩
    exact ⟨hm, fun ⟨hclose, c, hc, hs⟩ => hs (hn hclose c hc), hb⟩

theorem balanced_nil : Balanced m [] ↔ m = .plain := by
  unfold Balanced BadClose
  simp [Mode.after]

/-- The byte behind a closing quote, as the tokenizer looks at it. -/
theorem blank_or_nul_iff (h0 : 0 ∉ text) : (∀ c, text.head? = some c → isspace c = true) ↔
    peek (text ++ 0 :: rest) 0 = 0 ∨ isspace (peek (text ++ 0 :: rest) 0) = true := by
  cases text with
  | nil => simp [peek]
  | cons c text =>
    have hc : c ≠ 0 := fun hc => h0 (by simp [hc])
    simp [peek, hc]

/-- Behind a backslash in double quotes any byte is taken. -/
theorem balanced_inqEscaped : Balanced .inqEscaped (b :: text) ↔ Balanced .inq text := by
  rw [balanced_cons]
  simp [Mode.Closes, Mode.next]

/-- Behind a backslash in single quotes a single quote is taken, -/
theorem balanced_insqEscaped_squote :
    Balanced .insqEscaped (squote :: text) ↔ Balanced .insq text := by
  rw [balanced_cons]
  simp [Mode.Closes, Mode.next, show squote ≠ backslash by decide]

/-- and otherwise the backslash is nothing special. -/
theorem balanced_insqEscaped (h : text.head? ≠ some squote) :
    Balanced .insqEscaped text ↔ Balanced .insq text := by
  cases text with
  | nil => simp [balanced_nil]
  | cons d text =>
    have hd : d ≠ squote := by simpa using h
    rw [balanced_cons, balanced_cons]
    simp [Mode.Closes, Mode.next, hd]

section Turn
variable (hb : b ≠ 0) (h1 : 0 ∉ text)
  (ihp : closes .plain (text ++ 0 :: rest) = true ↔ Balanced .plain text)
include hb h1 ihp

/-- A byte in double quotes. -/
theorem closes_inq_iff (ihd : closes .inq (text ++ 0 :: rest) = true ↔ Balanced .inq text)
    (ih : ∀ d t, text = d :: t → (closes .inq (t ++ 0 :: rest) = true ↔ Balanced .inq t)) :
    closes .inq (b :: text ++ 0 :: rest) = true ↔ Balanced .inq (b :: text) := by
  have hends := @blank_or_nul_iff text rest h1
  rw [List.cons_append, closes.eq_def]
  dsimp only
  rw [if_neg hb, balanced_cons, hends]
  by_cases hs : b = backslash
  · subst hs
    have hmode : Mode.inq.next backslash = .inqEscaped := rfl
    have hno : ¬Mode.inq.Closes backslash := by
      simp [Mode.Closes, show backslash ≠ dquote by decide]
    rw [hmode, and_iff_right fun hc => absurd hc hno]
    cases text with
    | nil =>
      rw [if_neg (by simp [peek]), if_neg (by decide), ihd, balanced_nil, balanced_nil]
      simp
    | cons d text =>
      have hd : d ≠ 0 := fun hd => h1 (by simp [hd])
      rw [if_pos ⟨rfl, hd⟩, balanced_inqEscaped]
      exact ih d text rfl
  · by_cases hq : b = dquote
    · subst hq
      simp [Mode.Closes, Mode.next, hs, ihp]
    · simp [Mode.Closes, Mode.next, hs, hq, ihd]

/-- A byte in single quotes. -/
theorem closes_insq_iff (ihs : closes .insq (text ++ 0 :: rest) = true ↔ Balanced .insq text)
    (ih : ∀ d t, text = d :: t → (closes .insq (t ++ 0 :: rest) = true ↔ Balanced .insq t)) :
    closes .insq (b :: text ++ 0 :: rest) = true ↔ Balanced .insq (b :: text) := by
  have hends := @blank_or_nul_iff text rest h1
  rw [List.cons_append, closes.eq_def]
  dsimp only
  rw [if_neg hb, balanced_cons, hends]
  by_cases hs : b = backslash
  · subst hs
    have hmode : Mode.insq.next backslash = .insqEscaped := rfl
    have hno : ¬Mode.insq.Closes backslash := by
      simp [Mode.Closes, show backslash ≠ squote by decide]
    rw [hmode, and_iff_right fun hc => absurd hc hno]
    by_cases hd : text.head? = some squote
    · obtain ⟨text, rfl⟩ := List.head?_eq_some_iff.mp hd
      rw [if_pos ⟨rfl, rfl⟩, balanced_insqEscaped_squote]
      exact ih squote text rfl
    · have hne : ¬(backslash = backslash ∧ peek (text ++ 0 :: rest) 0 = squote) := by
        rintro ⟨-, he⟩
        cases text with
        | nil => exact absurd (show (0 : UInt8) = squote from he) (by decide)
        | cons d text => exact hd (congrArg some he)
      rw [if_neg hne, if_neg (by decide), balanced_insqEscaped hd]
      exact ihs
  · by_cases hq : b = squote
    · subst hq
      simp [Mode.Closes, Mode.next, hs, ihp]
    · simp [Mode.Closes, Mode.next, hs, hq, ihs]

end Turn

/-- **The quotes are balanced** exactly if the tokenizer finds that they are: the mode is that of the
tokenizer, which looks ahead behind a backslash. -/
theorem closes_iff (rest : Bytes) : ∀ {text : Bytes}, 0 ∉ text →
    (closes .plain (text ++ 0 :: rest) = true ↔ Balanced .plain text) ∧
      (closes .inq (text ++ 0 :: rest) = true ↔ Balanced .inq text) ∧
      (closes .insq (text ++ 0 :: rest) = true ↔ Balanced .insq text)
  | [], _ => by
    refine ⟨?_, ?_, ?_⟩ <;> rw [balanced_nil, closes.eq_def] <;> simp
  | b :: text, h0 => by
    have hb : b ≠ 0 := fun hb => h0 (by simp [hb])
    have h1 : 0 ∉ text := fun hm => h0 (List.mem_cons_of_mem b hm)
    obtain ⟨ihp, ihd, ihs⟩ := closes_iff rest h1
    refine ⟨?_, closes_inq_iff hb h1 ihp ihd ?_, closes_insq_iff hb h1 ihp ihs ?_⟩
    · rw [List.cons_append, closes, if_neg hb, balanced_cons]
      simp only [Mode.Closes, Mode.next]
      split_ifs <;> simp [*]
    · rintro d t rfl
      exact (closes_iff rest fun hm => h1 (List.mem_cons_of_mem d hm)).2.1
    · rintro d t rfl
      exact (closes_iff rest fun hm => h1 (List.mem_cons_of_mem d hm)).2.2

end Quotes

/-- The string that a memory begins with. -/
def string (mem : Bytes) : Bytes := mem.takeWhile (· ≠ 0)

theorem string_append : ∀ {mem : Bytes}, 0 ∈ mem → ∃ rest, mem = string mem ++ 0 :: rest
  | b :: mem, h => by
    unfold string
    rw [List.takeWhile_cons]
    by_cases hb : b = 0
    · exact ⟨mem, by simp [hb]⟩
    · have hmem : 0 ∈ mem := by
        rcases List.mem_cons.mp h with he | hm
        · exact absurd he.symm hb
        · exact hm
      obtain ⟨rest, hrest⟩ := string_append hmem
      rw [if_pos (by simpa using hb)]
      exact ⟨rest, congrArg (b :: ·) hrest⟩

theorem nul_not_mem_string (mem : Bytes) : 0 ∉ string mem := by
  intro h
  simpa using List.all_eq_true.mp List.all_takeWhile 0 h

/-- **The inline tokenizer stays inside its string**: it ends, reads nothing behind the first NUL and
returns `0` or `-1`; and it returns `-1`, with an empty `argv`, exactly if a quoted token is
unterminated or its closing quote is followed by something else than a blank. -/
theorem split2args_stays {mem : Bytes} (h : 0 ∈ mem) (argv : Argv) :
    (split2args mem argv).Within (mem.idxOf 0) ∧
      ∃ ret argv', (split2args mem argv).val = some (ret, argv') ∧ (ret = 0 ∨ ret = -1) ∧
        (ret = -1 → argv' = []) ∧ (ret = -1 ↔ Misquoted (string mem)) := by
  obtain ⟨hw, hv⟩ := split2args_spec h argv
  obtain ⟨rest, hrest⟩ := string_append h
  have hq : Split2args.split2args mem = none ↔ Misquoted (string mem) := by
    rw [split2args_eq_none_iff, misquoted_iff, ← (closes_iff rest (nul_not_mem_string mem)).1, ← hrest,
      Bool.not_eq_true]
  refine ⟨hw, ?_⟩
  rcases hs : Split2args.split2args mem with _ | ts <;> rw [hs] at hv
  · exact ⟨-1, [], hv, Or.inr rfl, fun _ => rfl, iff_of_true rfl (hq.mp hs)⟩
  · refine ⟨0, argv ++ ts, hv, Or.inl rfl, fun he => absurd he (by decide), ?_⟩
    refine iff_of_false (by decide) fun hm => ?_
    rw [hq.mpr hm] at hs
    cases hs

/-- A backslash in quotes right in front of the NUL. -/
theorem split2args_stays_backslash :
    (split2args (bytes "a \"b\\" ++ [0, ch 'c']) []).Within
        ((bytes "a \"b\\" ++ [0, ch 'c']).idxOf 0) ∧
      ∃ ret argv', (split2args (bytes "a \"b\\" ++ [0, ch 'c']) []).val = some (ret, argv') ∧
        (ret = 0 ∨ ret = -1) ∧ (ret = -1 → argv' = []) ∧
          (ret = -1 ↔ Misquoted (string (bytes "a \"b\\" ++ [0, ch 'c']))) :=
  split2args_stays (by decide) []

end Pink.Redis.Pointers
