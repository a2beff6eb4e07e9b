import Mathlib.Data.List.TakeWhile
import Pink.Redis.Feed
import Pink.Redis.Tokens

/-! # Inline requests

Inline requests in one chunk. The parser looks for the line feed of the request, but gives the
tokenizer the whole buffer from the request on, and the tokenizer does not stop at a line end: a
request is delivered with the arguments of all the lines behind it, and quotes that are open at the
end of a line may be closed by what follows. Each line is a request of its own exactly when the other
lines are blank and what follows leaves the quotes of an unbalanced line unbalanced
(`lineByLine_iff`). -/

namespace Pink.Redis.Inline

open Pink.Redis.Wire Pink.Redis.Split2args Pink.Redis.Tokens Pink.Redis.Parser Pink.Redis.Scan
open Pink.Redis.Refine Pink.Redis.Fragment Pink.Redis.Feed Pink.Redis.Parser.RedisParser

/-! ### Lines -/

/-- A line of an inline request. -/
structure Line (l : Bytes) : Prop where
  nul : 0 ∉ l
  lf : LF ∉ l
  star : peek l 0 ≠ ch '*'

/-- The lines, each with its end. -/
def linesBytes (lines : List Bytes) : Bytes := lines.flatMap (· ++ [CR, LF])

/-- A chunk: lines, and then maybe another line with some bytes behind it. -/
def chunk (lines : List Bytes) : Option (Bytes × Bytes) → Bytes
  | none => linesBytes lines
  | some (l, t) => linesBytes lines ++ (l ++ CR :: LF :: t)

instance (l : Bytes) : Decidable (Line l) :=
  decidable_of_iff (0 ∉ l ∧ LF ∉ l ∧ peek l 0 ≠ ch '*')
    ⟨fun h => ⟨h.1, h.2.1, h.2.2⟩, fun h => ⟨h.1, h.2, h.3⟩⟩

/-- The lines have balanced quotes, the one behind them has not. -/
structure Input (lines : List Bytes) (tail : Option (Bytes × Bytes)) : Prop where
  lines : ∀ l ∈ lines, Line l ∧ (split2args l).isSome
  tail : ∀ x ∈ tail, Line x.1 ∧ split2args x.1 = none

/-- The commands of the lines, each by itself; a line without arguments has none. -/
def commands (lines : List Bytes) : List Argv := (lines.filterMap split2args).filter (· ≠ [])

/-- **Each request is parsed from its own line**: the parser delivers the commands of the balanced
lines, and fails at the other one. -/
structure LineByLine (p : RedisParser) (lines : List Bytes) (tail : Option (Bytes × Bytes)) :
    Prop where
  fault : p.fault = none
  dealt : dealt p.log = commands lines
  done : tail = none → p.statusCode = .done
  error : tail ≠ none → p.statusCode = .error ∧ p.errorCode = .protoError

/-- The lines behind the first are blank; with an unbalanced line behind them all lines are, and the
quotes of that line are not closed by what follows it. -/
def Blank (lines : List Bytes) : Option (Bytes × Bytes) → Prop
  | none => ∀ l ∈ lines.tail, l.all isspace = true
  | some (l, t) => (∀ l ∈ lines, l.all isspace = true) ∧ closes .plain (l ++ CR :: LF :: t) = false

instance (lines : List Bytes) : ∀ tail, Decidable (Blank lines tail)
  | none => inferInstanceAs (Decidable (∀ l ∈ _, _))
  | some _ => inferInstanceAs (Decidable ((∀ l ∈ _, _) ∧ _))

/-! ### The tokens of several lines -/

theorem linesBytes_cons (l : Bytes) (lines : List Bytes) (t : Bytes) :
    linesBytes (l :: lines) ++ t = l ++ CR :: LF :: (linesBytes lines ++ t) := by
  simp [linesBytes]

theorem split2args_line {l : Bytes} (hl : Line l) {ts : Argv} (h : split2args l = some ts)
    (t : Bytes) : split2args (l ++ CR :: LF :: t) = (split2args t).map (ts ++ ·) := by
  have hlf : split2args (LF :: t) = split2args t := split2args_skipBlanks rfl
  rw [split2args_append _ hl.nul h, hlf]

theorem skipBlanks_eq_nil_iff {l : Bytes} (h0 : 0 ∉ l) :
    skipBlanks l = [] ↔ l.all isspace = true := by
  rw [skipBlanks, List.dropWhile_eq_nil_iff, List.all_eq_true]
  refine forall₂_congr fun c hc => ?_
  have hne : c ≠ 0 := fun h => h0 (h ▸ hc)
  simp [hne]

/-- A line has no arguments exactly when it is blank. -/
theorem split2args_eq_nil_iff {l : Bytes} (h0 : 0 ∉ l) :
    split2args l = some [] ↔ l.all isspace = true := by
  rw [← skipBlanks_eq_nil_iff h0]
  constructor
  · intro h
    by_contra hne
    rw [split2args_token (peek_ne_nul (nul_not_mem_skipBlanks h0) hne)] at h
    obtain ⟨x, -, hx⟩ := Option.bind_eq_some_iff.mp h
    obtain ⟨ts, -, hts⟩ := Option.map_eq_some_iff.mp hx
    cases hts
  · intro h
    exact split2args_end (by rw [h]; rfl)

/-- An unbalanced line has an argument, if the text as a whole has any. -/
theorem split2args_unbalanced {l : Bytes} (hl : Line l) (h : split2args l = none) {t : Bytes}
    {ts : Argv} (hts : split2args (l ++ CR :: LF :: t) = some ts) : ts ≠ [] := by
  rintro rfl
  have hne : skipBlanks l ≠ [] := by
    intro hnil
    rw [split2args_end (by rw [hnil]; rfl)] at h
    cases h
  have hpeek : peek (skipBlanks (l ++ CR :: LF :: t)) 0 ≠ 0 := by
    rw [skipBlanks_line, if_neg hne]
    have := peek_ne_nul (nul_not_mem_skipBlanks hl.nul) hne
    cases hs : skipBlanks l with
    | nil => exact absurd hs hne
    | cons c r =>
      rw [hs] at this
      exact this
  rw [split2args_token hpeek] at hts
  obtain ⟨x, -, hx⟩ := Option.bind_eq_some_iff.mp hts
  obtain ⟨ts, -, hts⟩ := Option.map_eq_some_iff.mp hx
  cases hts

/-! ### The scan -/

variable (string2l : Bytes → ℕ → Option ℤ)

/-- **A line is one move**, with the arguments of all that is in the buffer. -/
theorem step_line {l : Bytes} (hl : Line l) (t : Bytes) (len : ℤ) :
    step string2l len .fresh (l ++ CR :: LF :: t) =
      match split2args (l ++ CR :: LF :: t) with
      | none => .error .protoError
      | some argv => .emit argv t := by
  have hstar : peek (l ++ CR :: LF :: t) 0 ≠ ch '*' := by
    cases l with
    | nil => exact show CR ≠ ch '*' by decide
    | cons c l => exact hl.star
  have hidx : (l ++ CR :: LF :: t).idxOf? LF = some (l.length + 1) := by
    have hnone : (l ++ [CR]).idxOf? LF = none := by
      rw [List.idxOf?_eq_none_iff]
      simp [hl.lf, show LF ≠ CR by decide]
    rw [show l ++ CR :: LF :: t = (l ++ [CR]) ++ LF :: t by simp, idxOf?_append_right _ hnone,
      List.idxOf?_cons]
    simp
  have hdrop : (l ++ CR :: LF :: t).drop (l.length + 1 + 1) = t := by
    rw [show l ++ CR :: LF :: t = (l ++ [CR, LF]) ++ t by simp]
    exact List.drop_left' (by simp)
  unfold step settle
  dsimp only
  rw [if_neg hstar]
  dsimp only
  rw [inlineMove, hidx]
  dsimp only
  cases split2args (l ++ CR :: LF :: t) <;> rw [hdrop]

/-- The commands delivered for lines with these arguments: those of a line, together with those of
all the lines behind it. -/
def merged : List Argv → List Argv
  | [] => []
  | ts :: tss => if (ts :: tss).flatten = [] then merged tss else (ts :: tss).flatten :: merged tss

theorem split2args_lines : ∀ (lines : List Bytes), (∀ l ∈ lines, Line l ∧ (split2args l).isSome) →
    ∀ t : Bytes, split2args (linesBytes lines ++ t) =
      (split2args t).map ((lines.filterMap split2args).flatten ++ ·)
  | [], _, t => by cases h : split2args t <;> simp [linesBytes, h]
  | l :: lines, h, t => by
    obtain ⟨hl, ts, hts⟩ := (h l (by simp)).imp_right Option.isSome_iff_exists.mp
    have ih := split2args_lines lines (fun m hm => h m (List.mem_cons_of_mem _ hm)) t
    rw [linesBytes_cons, split2args_line hl hts, ih, Option.map_map, List.filterMap_cons_some hts]
    congr 1
    funext x
    simp

/-- **The scan of balanced lines.** -/
theorem scan_lines (len : ℤ) : ∀ (lines : List Bytes) (n : ℕ),
    (∀ l ∈ lines, Line l ∧ (split2args l).isSome) → (linesBytes lines).length < n →
    scan string2l len n .fresh (linesBytes lines) =
      (merged (lines.filterMap split2args), .wait .fresh [])
  | [], n + 1, _, _ => rfl
  | _, 0, _, h => by omega
  | l :: lines, n + 1, h, hn => by
    have hcons := linesBytes_cons l lines []
    rw [List.append_nil, List.append_nil] at hcons
    have hargs := split2args_lines (l :: lines) h []
    rw [List.append_nil, show split2args [] = some [] from rfl, Option.map_some,
      List.append_nil] at hargs
    obtain ⟨hl, ts, hts⟩ := (h l (by simp)).imp_right Option.isSome_iff_exists.mp
    have ih := scan_lines len lines n (fun m hm => h m (List.mem_cons_of_mem _ hm)) (by
      rw [hcons] at hn
      simp only [List.length_append, List.length_cons] at hn
      omega)
    rw [scan, if_neg (by rw [hcons]; simp), hcons, step_line string2l hl, ← hcons, hargs]
    dsimp only
    rw [ih, List.filterMap_cons_some hts, merged, Scan.deliver]
    split_ifs <;> rfl

/-- The first move on a chunk with an unbalanced line. -/
theorem scan_unbalanced (len : ℤ) {lines : List Bytes} {l t : Bytes} {n : ℕ}
    (h : Input lines (some (l, t))) : ∃ r,
    scan string2l len (n + 1) .fresh (chunk lines (some (l, t))) =
      match split2args (l ++ CR :: LF :: t) with
      | none => ([], .error .protoError)
      | some ts => Scan.deliver ((lines.filterMap split2args).flatten ++ ts)
        (scan string2l len n .fresh r) := by
  obtain ⟨hl, hnone⟩ := h.tail _ rfl
  have hargs := split2args_lines lines h.lines (l ++ CR :: LF :: t)
  cases lines with
  | nil =>
    refine ⟨t, ?_⟩
    show scan string2l len (n + 1) .fresh (l ++ CR :: LF :: t) = _
    rw [scan, if_neg (by simp), step_line string2l hl]
    cases split2args (l ++ CR :: LF :: t) <;> rfl
  | cons m lines =>
    obtain ⟨hm, -⟩ := h.lines m (by simp)
    refine ⟨linesBytes lines ++ (l ++ CR :: LF :: t), ?_⟩
    rw [linesBytes_cons] at hargs
    rw [chunk, linesBytes_cons, scan, if_neg (by simp), step_line string2l hm, hargs]
    cases split2args (l ++ CR :: LF :: t) <;> rfl

/-! ### Counting arguments -/

/-- The number of arguments. -/
def weight (cs : List Argv) : ℕ := (cs.map List.length).sum

theorem weight_filter (cs : List Argv) : weight (cs.filter (· ≠ [])) = cs.flatten.length := by
  induction cs with
  | nil => rfl
  | cons c cs ih =>
    unfold weight at ih ⊢
    by_cases hc : c = []
    · simpa [hc] using ih
    · rw [List.filter_cons_of_pos (by simpa using hc)]
      simp only [List.map_cons, List.sum_cons, List.flatten_cons, List.length_append, ih]

theorem weight_merged (ts : Argv) (tss : List Argv) :
    weight (merged (ts :: tss)) = (ts :: tss).flatten.length + weight (merged tss) := by
  rw [merged]
  split_ifs with h
  · simp [h]
  · rfl

theorem length_le_weight_merged (tss : List Argv) : tss.flatten.length ≤ weight (merged tss) := by
  cases tss with
  | nil => simp
  | cons ts tss =>
    rw [weight_merged]
    omega

/-- Arguments are delivered more than once unless the lines behind the first have none. -/
theorem merged_eq_iff (tss : List Argv) :
    merged tss = tss.filter (· ≠ []) ↔ ∀ ts ∈ tss.tail, ts = [] := by
  cases tss with
  | nil => simp [merged]
  | cons ts tss =>
    rw [List.tail_cons]
    constructor
    · intro h
      have hw := congrArg weight h
      rw [weight_filter, weight_merged] at hw
      have hle := length_le_weight_merged tss
      have hnil : tss.flatten = [] := List.length_eq_zero_iff.mp (by omega)
      exact List.flatten_eq_nil_iff.mp hnil
    · intro h
      have hnil : tss.flatten = [] := List.flatten_eq_nil_iff.mpr h
      have hmerged : ∀ l : List Argv, (∀ x ∈ l, x = []) → merged l = [] := by
        intro l
        induction l with
        | nil => exact fun _ => rfl
        | cons x l ih =>
          intro hl
          have hx : (x :: l).flatten = [] := List.flatten_eq_nil_iff.mpr hl
          rw [merged, if_pos hx]
          exact ih fun y hy => hl y (List.mem_cons_of_mem _ hy)
      have hfilter : tss.filter (· ≠ []) = [] := by
        rw [List.filter_eq_nil_iff]
        intro x hx
        simp [h x hx]
      rw [merged, hmerged tss h, List.flatten_cons, hnil, List.append_nil]
      by_cases hts : ts = []
      · rw [if_pos hts, List.filter_cons_of_neg (by simp [hts]), hfilter]
      · rw [if_neg hts, List.filter_cons_of_pos (by simpa using hts), hfilter]

/-! ### The parser -/

/-- The lines have no arguments exactly when they are blank. -/
theorem tokens_nil_iff {lines : List Bytes} (h : ∀ l ∈ lines, Line l ∧ (split2args l).isSome) :
    (∀ ts ∈ lines.filterMap split2args, ts = []) ↔ ∀ l ∈ lines, l.all isspace = true := by
  constructor
  · intro hts l hl
    obtain ⟨ts, he⟩ := Option.isSome_iff_exists.mp (h l hl).2
    have := hts ts (List.mem_filterMap.mpr ⟨l, hl, he⟩)
    rw [← split2args_eq_nil_iff (h l hl).1.nul, he, this]
  · intro hall ts hts
    obtain ⟨l, hl, he⟩ := List.mem_filterMap.mp hts
    have := (split2args_eq_nil_iff (h l hl).1.nul).mpr (hall l hl)
    rw [he, Option.some.injEq] at this
    exact this

variable {string2l}

theorem fed_nil (string2l : Bytes → ℕ → Option ℤ) : (fed string2l [[]]).fault = none ∧
    (fed string2l [[]]).statusCode = .done ∧ dealt (fed string2l [[]]).log = [] := by
  have hlen : toInt32 ((freshRequest okSettings).halfArgv ++ []).length = 0 :=
    toInt32_of_lt (by decide)
  have h : fed string2l [[]] = _ := processInputBuffer_eq ready_fresh [] hlen
  rw [h]
  exact ⟨rfl, rfl, rfl⟩

/-- One chunk is one scan. -/
theorem fed_chunk {c : Bytes} (hc : c ≠ []) (hlen : c.length < 2 ^ 31) :
    Ends (freshRequest okSettings) (call string2l .fresh c) (fed string2l [c]) :=
  processInputBuffer_ends string2l ready_fresh hc hlen

/-- Balanced lines. -/
theorem lines_iff {lines : List Bytes} (h : Input lines none)
    (hlen : (chunk lines none).length < 2 ^ 31) :
    LineByLine (fed string2l [chunk lines none]) lines none ↔ Blank lines none := by
  cases lines with
  | nil =>
    obtain ⟨h1, h2, h3⟩ := fed_nil string2l
    exact iff_of_true ⟨h1, h3, fun _ => h2, fun hn => absurd rfl hn⟩ (by simp [Blank])
  | cons l lines =>
    have hne : chunk (l :: lines) none ≠ [] := by simp [chunk, linesBytes]
    have hE : Ends _ _ (fed string2l _) := fed_chunk hne hlen
    have hscan : call string2l .fresh (chunk (l :: lines) none) = _ :=
      scan_lines string2l _ (l :: lines) _ h.lines (lt_add_one _)
    rw [hscan] at hE
    obtain ⟨-, -, hdealt, hfault, hstatus, -⟩ := hE
    have hdealt' : dealt (fed string2l [chunk (l :: lines) none]).log =
        merged ((l :: lines).filterMap split2args) := hdealt
    obtain ⟨ts, hts⟩ := Option.isSome_iff_exists.mp (h.lines l (by simp)).2
    have htail : ((l :: lines).filterMap split2args).tail = lines.filterMap split2args := by
      rw [List.filterMap_cons_some hts, List.tail_cons]
    have hblank := tokens_nil_iff fun m hm => h.lines m (List.mem_cons_of_mem l hm)
    rw [Blank, List.tail_cons, ← hblank, ← htail, ← merged_eq_iff, ← hdealt']
    exact ⟨fun hl => hl.dealt, fun hd => ⟨hfault, hd, fun _ => hstatus, fun hn => absurd rfl hn⟩⟩

/-- Balanced lines and an unbalanced one. -/
theorem unbalanced_iff {lines : List Bytes} {x : Bytes × Bytes} (h : Input lines (some x))
    (hlen : (chunk lines (some x)).length < 2 ^ 31) :
    LineByLine (fed string2l [chunk lines (some x)]) lines (some x) ↔ Blank lines (some x) := by
  obtain ⟨l, t⟩ := x
  have hne : chunk lines (some (l, t)) ≠ [] := by simp [chunk]
  have hE : Ends _ _ (fed string2l _) := fed_chunk hne hlen
  obtain ⟨r, hscan⟩ := scan_unbalanced string2l (chunk lines (some (l, t))).length
    (n := (chunk lines (some (l, t))).length) h
  rw [call, hscan] at hE
  have hweight := weight_filter (lines.filterMap split2args)
  rw [Blank, ← tokens_nil_iff h.lines, ← List.flatten_eq_nil_iff]
  cases hs : split2args (l ++ CR :: LF :: t) with
  | none =>
    rw [hs] at hE
    obtain ⟨-, -, hdealt, hfault, hstatus, herror, -⟩ := hE
    have hdealt' : dealt (fed string2l [chunk lines (some (l, t))]).log = [] := hdealt
    refine ⟨fun hl => ⟨?_, (split2args_eq_none_iff _).mp hs⟩, fun hb => ⟨hfault, ?_, ?_, ?_⟩⟩
    · have hnil : commands lines = [] := by rw [← hl.dealt, hdealt']
      rw [commands] at hnil
      rw [hnil] at hweight
      exact List.length_eq_zero_iff.mp hweight.symm
    · rw [hdealt', commands, eq_comm, List.filter_eq_nil_iff]
      intro ts hts
      simp [List.flatten_eq_nil_iff.mp hb.1 ts hts]
    · exact fun hn => absurd hn (by simp)
    · exact fun _ => ⟨hstatus, herror⟩
  | some ts =>
    rw [hs] at hE
    have hts : ts ≠ [] := split2args_unbalanced (h.tail _ rfl).1 (h.tail _ rfl).2 hs
    have hpos := List.length_pos_iff.mpr hts
    have hcloses : ¬closes .plain (l ++ CR :: LF :: t) = false := by
      rw [← split2args_eq_none_iff, hs]
      simp
    refine iff_of_false (fun hl => ?_) fun hb => hcloses hb.2
    -- the command delivered first has more arguments than all the lines together
    have hdealt := hE.dealt
    rw [hl.dealt] at hdealt
    dsimp only at hdealt
    rw [Scan.deliver, if_neg (by simp [hts])] at hdealt
    have hw := congrArg weight hdealt
    rw [commands, hweight] at hw
    simp only [weight, List.map_append, List.map_cons, List.sum_append, List.sum_cons,
      List.length_append] at hw
    omega

/-- **Each request is parsed from its own line** exactly when the other lines are blank and the
quotes of an unbalanced line are not closed by what follows it. -/
theorem lineByLine_iff (lines : List Bytes) (tail : Option (Bytes × Bytes)) (h : Input lines tail)
    (hlen : (chunk lines tail).length < 2 ^ 31) :
    LineByLine (fed string2l [chunk lines tail]) lines tail ↔ Blank lines tail := by
  cases tail with
  | none => exact lines_iff h hlen
  | some x => exact unbalanced_iff h hlen

theorem lineByLine_iff_get :
    LineByLine (fed Wire.string2l [chunk [bytes "GET \"a b\"", bytes "  "] none])
      [bytes "GET \"a b\"", bytes "  "] none ↔ Blank [bytes "GET \"a b\"", bytes "  "] none :=
  lineByLine_iff _ none ⟨by decide +kernel, by simp⟩ (by decide +kernel)

/-- The first of two requests is delivered with the arguments of both, and a quote that is open at
the end of a line is closed by the next line. -/
theorem not_lineByLine :
    (Input [bytes "GET a", bytes "GET b"] none ∧
      ¬LineByLine (fed Wire.string2l [chunk [bytes "GET a", bytes "GET b"] none])
        [bytes "GET a", bytes "GET b"] none) ∧
    (Input [] (some (bytes "GET \"a", bytes "b\" c\r\n")) ∧
      ¬LineByLine (fed Wire.string2l [chunk [] (some (bytes "GET \"a", bytes "b\" c\r\n"))])
        [] (some (bytes "GET \"a", bytes "b\" c\r\n"))) := by
  refine ⟨⟨⟨by decide +kernel, by simp⟩, fun h => ?_⟩, ⟨⟨by simp, ?_⟩, fun h => ?_⟩⟩
  · exact absurd h.dealt (by decide +kernel)
  · rintro x hx
    obtain rfl := Option.some.inj hx
    decide +kernel
  · exact absurd h.dealt (by decide +kernel)

end Pink.Redis.Inline
