import Pink.Redis.Split2args

/-! # Laws of the inline tokenizer

`split2args` one token at a time (`split2args_token`), and when it fails: `closes` follows the quotes
of a text and nothing else, and the text is split exactly when they are balanced
(`split2args_isSome`). -/

namespace Pink.Redis.Tokens

open Pink.Redis.Wire Pink.Redis.Split2args

/-! ### Balanced quotes -/

/-- The quotes of a text are balanced: a quote that is open is closed, and a closing quote is
followed by a blank or by nothing. In quotes a backslash protects the byte behind it; in single
quotes only a single quote. -/
def closes : Quote → Bytes → Bool
  | .plain, [] => true
  | .inq, [] => false
  | .insq, [] => false
  | .plain, c :: r =>
    if c = 0 then true
    else if c = dquote then closes .inq r
    else if c = squote then closes .insq r
    else closes .plain r
  | .inq, c :: r =>
    if c = 0 then false
    else if c = backslash ∧ peek r 0 ≠ 0 then
      match r with
      | _ :: r' => closes .inq r'
      | [] => false
    else if c = dquote then (peek r 0 = 0 ∨ isspace (peek r 0)) && closes .plain r
    else closes .inq r
  | .insq, c :: r =>
    if c = 0 then false
    else if c = backslash ∧ peek r 0 = squote then
      match r with
      | _ :: r' => closes .insq r'
      | [] => false
    else if c = squote then (peek r 0 = 0 ∨ isspace (peek r 0)) && closes .plain r
    else closes .insq r

theorem isHexDigit_ne {c : UInt8} (h : isHexDigit c = true) :
    c ≠ 0 ∧ c ≠ backslash ∧ c ≠ dquote := by
  refine ⟨?_, ?_, ?_⟩ <;> rintro rfl <;> revert h <;> decide

/-- A byte that is nothing special in quotes. -/
theorem closes_inq_cons {c : UInt8} (r : Bytes) (h0 : c ≠ 0) (hb : c ≠ backslash) (hq : c ≠ dquote) :
    closes .inq (c :: r) = closes .inq r := by
  rw [closes.eq_def]
  simp [h0, hb, hq]

/-! ### The loop -/

/-- The arguments found before do not matter. -/
theorem split2argsLoop_argv : ∀ (n : ℕ) (p : Bytes) (argv : Argv),
    split2argsLoop n p argv = (split2argsLoop n p []).map (argv ++ ·)
  | 0, p, argv => by simp [split2argsLoop]
  | n + 1, p, argv => by
    simp only [split2argsLoop]
    split_ifs with h
    · simp
    · cases getToken .plain (skipBlanks p) [] with
      | none => rfl
      | some x =>
        obtain ⟨a, r⟩ := x
        dsimp only
        rw [split2argsLoop_argv n r (argv ++ [a]), split2argsLoop_argv n r ([] ++ [a])]
        simp [Function.comp_def]

/-- More fuel than bytes changes nothing. -/
theorem split2argsLoop_fuel : ∀ (n m : ℕ) (p : Bytes) (argv : Argv), p.length < n → p.length < m →
    split2argsLoop n p argv = split2argsLoop m p argv
  | 0, _, _, _, h, _ => by omega
  | _, 0, _, _, _, h => by omega
  | n + 1, m + 1, p, argv, hn, hm => by
    simp only [split2argsLoop]
    split_ifs with h
    · rfl
    · cases hg : getToken .plain (skipBlanks p) [] with
      | none => rfl
      | some x =>
        obtain ⟨a, r⟩ := x
        have hlt := getToken_length_lt h hg
        have hle := skipBlanks_length_le p
        exact split2argsLoop_fuel n m r (argv ++ [a]) (by omega) (by omega)

theorem split2args_end {p : Bytes} (h : peek (skipBlanks p) 0 = 0) : split2args p = some [] := by
  rw [split2args, split2argsLoop, if_pos h]

/-- **One token at a time.** -/
theorem split2args_token {p : Bytes} (h : peek (skipBlanks p) 0 ≠ 0) :
    split2args p = (getToken .plain (skipBlanks p) []).bind fun x =>
      (split2args x.2).map (x.1 :: ·) := by
  rw [split2args, split2argsLoop, if_neg h]
  cases hg : getToken .plain (skipBlanks p) [] with
  | none => rfl
  | some x =>
    obtain ⟨a, r⟩ := x
    have hlt := getToken_length_lt h hg
    have hle := skipBlanks_length_le p
    dsimp only [Option.bind_some]
    rw [split2argsLoop_argv, split2args,
      split2argsLoop_fuel p.length (r.length + 1) r [] (by omega) (by omega)]
    rfl

/-- Only what is behind the blanks matters. -/
theorem split2args_skipBlanks {p p' : Bytes} (h : skipBlanks p = skipBlanks p') :
    split2args p = split2args p' := by
  by_cases h0 : peek (skipBlanks p) 0 = 0
  · rw [split2args_end h0, split2args_end (by rwa [← h])]
  · rw [split2args_token h0, split2args_token (by rwa [← h]), h]

/-! ### When a text is split -/

/-- A token keeps the quotes balanced as they are. -/
theorem closes_getToken (q : Quote) (p arg : Bytes) :
    closes q p = (getToken q p arg).elim false fun x => closes .plain x.2 := by
  fun_induction getToken q p arg
  case case5 c arg h0 _ h1 h2 r' h ih =>
    obtain ⟨rfl, hx, hd1, hd2⟩ := h
    obtain ⟨a0, a1, a2⟩ := isHexDigit_ne hd1
    obtain ⟨b0, b1, b2⟩ := isHexDigit_ne hd2
    rw [← ih, closes.eq_def]
    dsimp only
    rw [if_neg h0, if_pos ⟨rfl, by rw [hx]; decide⟩]
    exact (closes_inq_cons _ a0 a1 a2).trans (closes_inq_cons _ b0 b1 b2)
  case case6 c r arg h0 h hne =>
    exfalso
    rcases r with _ | ⟨x, _ | ⟨y, _ | ⟨z, r⟩⟩⟩
    · exact absurd h.2.2.2 (by decide)
    · exact absurd h.2.2.2 (show ¬isHexDigit 0 = true by decide)
    · exact absurd h.2.2.2 (show ¬isHexDigit 0 = true by decide)
    · exact hne x y z r rfl
  case case10 | case16 =>
    rw [closes.eq_def]
    simp_all [show dquote ≠ backslash by decide, show squote ≠ backslash by decide]
    tauto
  case case18 | case1 => simp [closes]
  case case19 c r arg h0 h =>
    rw [closes, if_neg h0]
    rcases h with rfl | rfl | rfl | rfl <;> rfl
  all_goals
    rw [closes.eq_def]
    simp_all

theorem closes_skipBlanks (p : Bytes) : closes .plain (skipBlanks p) = closes .plain p := by
  induction p with
  | nil => rfl
  | cons c p ih =>
    rw [skipBlanks, List.dropWhile_cons]
    split_ifs with hc
    · have hc' : c ≠ 0 ∧ isspace c = true := by simpa using hc
      have hq : c ≠ dquote ∧ c ≠ squote := by
        constructor <;> rintro rfl <;> exact absurd hc'.2 (by decide)
      rw [closes, if_neg hc'.1, if_neg hq.1, if_neg hq.2]
      exact ih
    · rfl

/-- **A text is split exactly when its quotes are balanced.** -/
theorem split2args_isSome (p : Bytes) : (split2args p).isSome = closes .plain p := by
  induction hn : p.length using Nat.strong_induction_on generalizing p with
  | _ n ih =>
    subst hn
    rw [← closes_skipBlanks]
    by_cases h : peek (skipBlanks p) 0 = 0
    · rw [split2args_end h]
      cases hs : skipBlanks p with
      | nil => rfl
      | cons c r =>
        rw [hs] at h
        have hc : c = 0 := h
        rw [closes, if_pos hc]
        rfl
    · rw [split2args_token h, closes_getToken .plain _ []]
      cases hg : getToken .plain (skipBlanks p) [] with
      | none => rfl
      | some x =>
        obtain ⟨a, r⟩ := x
        have hlt := getToken_length_lt h hg
        have hle := skipBlanks_length_le p
        simpa using ih r.length (by omega) r rfl

theorem split2args_eq_none_iff (p : Bytes) : split2args p = none ↔ closes .plain p = false := by
  rw [← split2args_isSome, Option.isSome_eq_false_iff, Option.isNone_iff_eq_none]

/-! ### A line end behind a text -/

section Append
variable (t : Bytes)

theorem hex_append (r : Bytes) :
    (peek (r ++ CR :: t) 0 = ch 'x' ∧ isHexDigit (peek (r ++ CR :: t) 1) = true ∧
      isHexDigit (peek (r ++ CR :: t) 2) = true) ↔
    (peek r 0 = ch 'x' ∧ isHexDigit (peek r 1) = true ∧ isHexDigit (peek r 2) = true) := by
  match r with
  | [] =>
    exact iff_of_false (fun h => absurd h.1 (show ¬CR = ch 'x' by decide))
      fun h => absurd h.2.1 (by decide)
  | [x] =>
    exact iff_of_false (fun h => absurd h.2.1 (show ¬isHexDigit CR = true by decide))
      fun h => absurd h.2.1 (show ¬isHexDigit 0 = true by decide)
  | [x, y] =>
    exact iff_of_false (fun h => absurd h.2.2 (show ¬isHexDigit CR = true by decide))
      fun h => absurd h.2.2 (show ¬isHexDigit 0 = true by decide)
  | x :: y :: z :: r => rfl

theorem ends_append (r : Bytes) :
    (peek (r ++ CR :: t) 0 ≠ 0 ∧ ¬isspace (peek (r ++ CR :: t) 0) = true) ↔
    (peek r 0 ≠ 0 ∧ ¬isspace (peek r 0) = true) := by
  cases r with
  | nil =>
    exact iff_of_false (fun h => h.2 (show isspace CR = true by decide)) fun h => h.1 rfl
  | cons x r => rfl

theorem squote_append (r : Bytes) : peek (r ++ CR :: t) 0 = squote ↔ peek r 0 = squote := by
  cases r with
  | nil => exact iff_of_false (show ¬CR = squote by decide) (by decide)
  | cons x r => rfl

/-- A token of a text is a token of the text with a line end behind it. -/
theorem getToken_append {q : Quote} {l arg a r : Bytes} (h : getToken q l arg = some (a, r)) :
    ∃ r', getToken q (l ++ CR :: t) arg = some (a, r') ∧
      skipBlanks r' = skipBlanks (r ++ CR :: t) := by
  fun_induction getToken q l arg
  case case1 =>
    cases h
    exact ⟨t, by simp [getToken, show CR ≠ 0 by decide], rfl⟩
  case case5 c arg h0 x h1 h2 r' hx ih =>
    obtain ⟨r'', e, hr⟩ := ih h
    refine ⟨r'', ?_, hr⟩
    rw [List.cons_append, getToken.eq_def]
    dsimp only
    rw [if_neg h0, if_pos ⟨hx.1, (hex_append t _).mpr hx.2⟩]
    exact e
  case case7 c arg h0 d r' hx hd ih =>
    obtain ⟨r'', e, hr⟩ := ih h
    refine ⟨r'', ?_, hr⟩
    rw [List.cons_append, getToken.eq_def]
    dsimp only
    rw [if_neg h0, if_neg (fun hc => hx ⟨hc.1, (hex_append t _).mp hc.2⟩),
      if_pos (show c = backslash ∧ peek (d :: r' ++ CR :: t) 0 ≠ 0 from hd)]
    exact e
  case case10 r₁ arg he h0 hx hb =>
    obtain ⟨rfl, rfl⟩ : arg = a ∧ r₁ = r := by simpa using h
    refine ⟨r₁ ++ CR :: t, ?_, rfl⟩
    rw [List.cons_append, getToken.eq_def]
    dsimp only
    rw [if_neg h0, if_neg (fun hc => absurd hc.1 (by decide)),
      if_neg (fun hc => absurd hc.1 (by decide)), if_pos rfl,
      if_neg (fun hc => he ((ends_append t _).mp hc))]
  case case11 c r₁ arg h0 hx hb hq ih =>
    obtain ⟨r'', e, hr⟩ := ih h
    refine ⟨r'', ?_, hr⟩
    have hb' : ¬(c = backslash ∧ peek (r₁ ++ CR :: t) 0 ≠ 0) := by
      rintro ⟨rfl, hne⟩
      -- a backslash at the end of the text leaves the quote open
      cases r₁ with
      | nil => simp [getToken] at h
      | cons d r₁ => exact hb ⟨rfl, hne⟩
    rw [List.cons_append, getToken.eq_def]
    dsimp only
    rw [if_neg h0, if_neg (fun hc => hx ⟨hc.1, (hex_append t _).mp hc.2⟩), if_neg hb', if_neg hq]
    exact e
  case case13 c arg h0 x r' hx ih =>
    obtain ⟨r'', e, hr⟩ := ih h
    refine ⟨r'', ?_, hr⟩
    rw [List.cons_append, getToken.eq_def]
    dsimp only
    rw [if_neg h0, if_pos ⟨hx.1, (squote_append t _).mpr hx.2⟩]
    exact e
  case case16 r₁ arg he h0 hb =>
    obtain ⟨rfl, rfl⟩ : arg = a ∧ r₁ = r := by simpa using h
    refine ⟨r₁ ++ CR :: t, ?_, rfl⟩
    rw [List.cons_append, getToken.eq_def]
    dsimp only
    rw [if_neg h0, if_neg (fun hc => absurd hc.1 (by decide)), if_pos rfl,
      if_neg (fun hc => he ((ends_append t _).mp hc))]
  case case17 c r₁ arg h0 hb hq ih =>
    obtain ⟨r'', e, hr⟩ := ih h
    refine ⟨r'', ?_, hr⟩
    rw [List.cons_append, getToken.eq_def]
    dsimp only
    rw [if_neg h0, if_neg (fun hc => hb ⟨hc.1, (squote_append t _).mp hc.2⟩), if_neg hq]
    exact e
  case case18 r₁ arg =>
    cases h
    exact ⟨0 :: r₁ ++ CR :: t, rfl, rfl⟩
  case case19 c r₁ arg h0 hb =>
    obtain ⟨rfl, rfl⟩ : arg = a ∧ r₁ = r := by simpa using h
    refine ⟨r₁ ++ CR :: t, ?_, rfl⟩
    rw [List.cons_append, getToken, if_neg h0, if_pos hb]
  case case20 r₁ arg h0 hb ih => exact ih h
  case case21 r₁ arg h0 hb hq ih => exact ih h
  case case22 c r₁ arg h0 hb hq hs ih =>
    obtain ⟨r'', e, hr⟩ := ih h
    refine ⟨r'', ?_, hr⟩
    rw [List.cons_append, getToken, if_neg h0, if_neg hb, if_neg hq, if_neg hs]
    exact e
  all_goals cases h

theorem nul_not_mem_skipBlanks {l : Bytes} (h : 0 ∉ l) : 0 ∉ skipBlanks l :=
  fun hm => h ((List.dropWhile_suffix _).subset hm)

theorem peek_ne_nul {l : Bytes} (h : 0 ∉ l) (hne : l ≠ []) : peek l 0 ≠ 0 := by
  cases l with
  | nil => exact absurd rfl hne
  | cons c l => exact fun hc => h (by rw [show c = 0 from hc]; simp)

theorem getToken_suffix {q : Quote} {l arg a r : Bytes} (h : getToken q l arg = some (a, r)) :
    r <:+ l := by
  fun_induction getToken q l arg
  case case5 ih => exact (ih h).trans ⟨[_, _, _, _], rfl⟩
  case case7 ih | case13 ih => exact (ih h).trans ⟨[_, _], rfl⟩
  case case11 ih | case17 ih | case20 ih | case21 ih | case22 ih =>
    exact (ih h).trans (List.suffix_cons _ _)
  case case1 | case18 =>
    cases h
    exact List.suffix_rfl
  case case10 | case16 | case19 =>
    cases h
    exact List.suffix_cons _ _
  all_goals cases h

theorem skipBlanks_line (l : Bytes) : skipBlanks (l ++ CR :: t) =
    if skipBlanks l = [] then skipBlanks t else skipBlanks l ++ CR :: t := by
  rw [skipBlanks, List.dropWhile_append]
  by_cases h : skipBlanks l = []
  · rw [if_pos h, if_pos (by simpa [skipBlanks] using h), List.dropWhile_cons, if_pos (by decide)]
    rfl
  · rw [if_neg h, if_neg (by simpa [skipBlanks] using h)]
    rfl

/-- **The tokens of a line, and those of what is behind it.** -/
theorem split2args_append {l : Bytes} {ts : Argv} (h0 : 0 ∉ l) (h : split2args l = some ts) :
    split2args (l ++ CR :: t) = (split2args t).map (ts ++ ·) := by
  induction hn : l.length using Nat.strong_induction_on generalizing l ts with
  | _ n ih =>
    subst hn
    have hline := skipBlanks_line t l
    by_cases hnil : skipBlanks l = []
    · rw [if_pos hnil] at hline
      rw [split2args_end (by rw [hnil]; rfl)] at h
      cases h
      rw [split2args_skipBlanks hline]
      cases split2args t <;> rfl
    rw [if_neg hnil] at hline
    have hpeek := peek_ne_nul (nul_not_mem_skipBlanks h0) hnil
    have hpeek' : peek (skipBlanks (l ++ CR :: t)) 0 ≠ 0 := by
      rw [hline]
      cases hs : skipBlanks l with
      | nil => exact absurd hs hnil
      | cons c r =>
        rw [hs] at hpeek
        exact hpeek
    rw [split2args_token hpeek] at h
    obtain ⟨⟨a, r⟩, hg, hr⟩ := Option.bind_eq_some_iff.mp h
    obtain ⟨ts', hts', rfl⟩ := Option.map_eq_some_iff.mp hr
    obtain ⟨r', hg', hr'⟩ := getToken_append t hg
    have hlt := getToken_length_lt hpeek hg
    have hle := skipBlanks_length_le l
    have hr0 : 0 ∉ r := fun hm =>
      nul_not_mem_skipBlanks h0 ((getToken_suffix hg).subset hm)
    rw [split2args_token hpeek', hline, hg', Option.bind_some, split2args_skipBlanks hr',
      ih r.length (by omega) hr0 hts' rfl, Option.map_map]
    rfl

end Append

end Pink.Redis.Tokens
