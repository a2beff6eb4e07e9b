import Pink.Redis.Feed
import Pink.Redis.Format

/-! # Formatted commands are read back

The stream of any list of formatted commands is steady, and so is every prefix of it: `Reads` says
this of a rest of the stream together with what the scan makes of it. A complete command is
delivered (`reads_command`); a proper part of one, wherever it ends, leaves the parser waiting
inside the request (`reads_part`). By the laws of divided streams the chunks in which the stream
arrives then do not matter. -/

namespace Pink.Redis.RoundTrip

open Pink.Redis.Wire Pink.Redis.Split2args Pink.Redis.Parser Pink.Redis.Scan Pink.Redis.Refine
open Pink.Redis.Fragment Pink.Redis.Feed Pink.Redis.Format Pink.Redis.Parser.RedisParser
open Pink.Lib.Chunks

/-- The scan of `r` gives `x`, and no cut of `r` matters. -/
structure Reads (string2l : Bytes → ℕ → Option ℤ) (total : ℕ) (l : ℤ) (q : Req) (r : Bytes)
    (x : List Argv × End) : Prop where
  steady : SteadyFrom string2l total (r.length + 1) q r
  scan : scan string2l l (r.length + 1) q r = x

section Rules
variable {string2l : Bytes → ℕ → Option ℤ} {total : ℕ} {l : ℤ} {q q' : Req} {r r' : Bytes}
  {x : List Argv × End}

theorem Reads.nil : Reads string2l total l .fresh [] ([], .wait .fresh []) :=
  ⟨.inl ⟨rfl, rfl⟩, by simp [Scan.scan]⟩

theorem Reads.wait (hne : ¬ (q = .fresh ∧ r = [])) (hok : MoveOk string2l total q r)
    (hm : ∀ l, step string2l l q r = .wait q' r') :
    Reads string2l total l q r ([], .wait q' r') := by
  refine ⟨?_, by simp only [Scan.scan, if_neg hne, hm]⟩
  rw [steadyFrom_succ hne]
  refine ⟨hok, fun l p s hp => ?_⟩
  rw [hm] at hp; cases hp

theorem Reads.next (hne : ¬ (q = .fresh ∧ r = [])) (hok : MoveOk string2l total q r)
    (hm : ∀ l, step string2l l q r = .next q' r') (h : Reads string2l total l q' r' x) :
    Reads string2l total l q r x := by
  have hlt := step_next_shorter (hm 0)
  constructor
  · rw [steadyFrom_succ hne]
    refine ⟨hok, fun l p s hp => ?_⟩
    rw [hm] at hp; cases hp
    exact steadyFrom_fuel (lt_add_one _) hlt h.steady
  · simp only [Scan.scan, if_neg hne, hm]
    rw [scan_fuel l r.length (r'.length + 1) q' r' hlt (lt_add_one _), h.scan]

theorem Reads.emit {argv : Argv} (hne : ¬ (q = .fresh ∧ r = [])) (hok : MoveOk string2l total q r)
    (hm : ∀ l, step string2l l q r = .emit argv r') (h : Reads string2l total l .fresh r' x) :
    Reads string2l total l q r (Scan.deliver argv x) := by
  have hlt := step_emit_shorter (hm 0)
  constructor
  · rw [steadyFrom_succ hne]
    refine ⟨hok, fun l p s hp => ?_⟩
    rw [hm] at hp; cases hp
    exact steadyFrom_fuel (lt_add_one _) hlt h.steady
  · simp only [Scan.scan, if_neg hne, hm]
    rw [scan_fuel l r.length (r'.length + 1) .fresh r' hlt (lt_add_one _), h.scan]

end Rules

/-! ### Header lines -/

theorem prefix_append_cases {α : Type*} {t x y : List α} (h : t <+: x ++ y) :
    (t <+: x ∧ t ≠ x) ∨ ∃ t', t = x ++ t' ∧ t' <+: y := by
  by_cases hx : x <+: t
  · obtain ⟨t', rfl⟩ := hx
    exact .inr ⟨t', rfl, (List.prefix_append_right_inj x).mp h⟩
  · have hle := (List.prefix_or_prefix_of_prefix h (List.prefix_append x y)).resolve_right hx
    exact .inl ⟨hle, fun he => hx (by rw [he])⟩

/-- A header line without its line feed: a type byte, a number and a carriage return. -/
def head (c : UInt8) (n : ℕ) : Bytes := c :: (decimalNat n ++ [CR])

section Head
variable {c : UInt8} {n : ℕ} (hc : c ≠ LF)
include hc

theorem LF_not_mem_head : LF ∉ head c n := by
  simp [head, LF_not_mem_decimalNat, hc.symm, CR, LF]

/-- What comes before the end of a header line holds no line feed. -/
theorem idxOf?_part {t : Bytes} (h : t <+: head c n ++ [LF]) (hne : t ≠ head c n ++ [LF]) :
    t.idxOf? LF = none := by
  have ht : t <+: head c n := (List.prefix_concat_iff.mp h).resolve_left hne
  exact List.idxOf?_eq_none_iff.mpr fun hm => LF_not_mem_head hc (ht.subset hm)

theorem idxOf?_head (t : Bytes) : (head c n ++ LF :: t).idxOf? LF = some (head c n).length := by
  rw [idxOf?_append_right _ (List.idxOf?_eq_none_iff.mpr (LF_not_mem_head hc)),
    List.idxOf?_cons]
  simp

omit hc in
theorem drop_head (t : Bytes) : (head c n ++ LF :: t).drop ((head c n).length + 1) = t := by
  simp [List.drop_append]

omit hc in
theorem num_head {string2l : Bytes → ℕ → Option ℤ} (hs : String2lSpec string2l) (hn : n < 2 ^ 31)
    (hlen : (decimalNat n).length < 2 ^ 31) (t : Bytes) :
    num string2l (head c n ++ LF :: t) (head c n).length = some (n : ℤ) := by
  have hl : ((head c n).length : ℤ) - 2 = ((decimalNat n).length : ℕ) := by
    simp [head]; omega
  unfold num
  rw [hl, sizeT_of_nonneg (by omega) (by omega), Int.toNat_natCast]
  have hlong : InLong (n : ℤ) := by unfold InLong LONG_MIN LONG_MAX; omega
  have := hs.decimal hlong ([CR] ++ LF :: t)
  rw [decimal_natCast] at this
  simpa [head] using this

end Head

/-! ### Arguments -/

theorem bulkBytes_eq (a t : Bytes) :
    bulkBytes a ++ t = head (ch '$') a.length ++ LF :: (a ++ CR :: LF :: t) := by
  simp [bulkBytes, head]

theorem dollar_ne_LF : ch '$' ≠ LF := by decide

theorem star_ne_LF : ch '*' ≠ LF := by decide

section Bulk
variable {string2l : Bytes → ℕ → Option ℤ} (hs : String2lSpec string2l) {total : ℕ} {a : Bytes}
  (ha : (bulkBytes a).length < 2 ^ 31)
include hs ha

/-- An argument whose header is complete. -/
theorem step_bulk (m : ℤ) (v : Argv) (t : Bytes) (l : ℤ) :
    step string2l l (.bulks m (-1) v) (head (ch '$') a.length ++ LF :: t) =
      if t = [] then .wait (.bulks m a.length v) [] else payloadMove m a.length v t := by
  have hle := length_le_bulkBytes a
  have hd : (decimalNat a.length).length < 2 ^ 31 := by
    simp only [bulkBytes, List.length_cons, List.length_append] at ha; omega
  have hp : peek (head (ch '$') a.length ++ LF :: t) 0 = ch '$' := rfl
  show bulkMove string2l m (-1) v _ = _
  rw [bulkMove, if_pos rfl, idxOf?_head dollar_ne_LF]
  simp only [hp, ne_eq, not_true_eq_false, if_false, num_head hs (by omega) hd, drop_head]

theorem moveOk_bulk (m : ℤ) (v : Argv) (t : Bytes) :
    MoveOk string2l total (.bulks m (-1) v) (head (ch '$') a.length ++ LF :: t) := by
  have hle := length_le_bulkBytes a
  have hd : (decimalNat a.length).length < 2 ^ 31 := by
    simp only [bulkBytes, List.length_cons, List.length_append] at ha; omega
  intro _
  rw [NilOk, idxOf?_head dollar_ne_LF]
  intro _ hn
  rw [num_head hs (by omega) hd, Option.some.injEq] at hn
  omega

/-- A complete argument is taken. -/
theorem step_bulk_full {m : ℤ} (hm : 0 < m) (v : Argv) (t : Bytes) (l : ℤ) :
    step string2l l (.bulks m (-1) v) (bulkBytes a ++ t) =
      if m - 1 = 0 then .emit (v ++ [a]) t else .next (.bulks (m - 1) (-1) (v ++ [a])) t := by
  have hle := length_le_bulkBytes a
  have hmin : m ≠ LONG_MIN := by unfold LONG_MIN; omega
  rw [bulkBytes_eq, step_bulk hs ha, if_neg (by simp), payloadMove,
    if_neg (by unfold LONG_MAX; omega), if_neg (by simp), if_neg (by omega), if_neg hmin]
  have htake : (a ++ CR :: LF :: t).take (a.length : ℤ).toNat = a := by simp
  have hdrop : (a ++ CR :: LF :: t).drop ((a.length : ℤ) + 2).toNat = t := by
    have : ((a.length : ℤ) + 2).toNat = a.length + 2 := by omega
    simp [this, List.drop_append]
  rw [htake, hdrop]

/-- A proper part of an argument is waited for. -/
theorem reads_bulk_part {m l : ℤ} {v : Argv} {t : Bytes} (ht : t <+: bulkBytes a)
    (hne : t ≠ bulkBytes a) : ∃ q h, q ≠ .fresh ∧
      Reads string2l total l (.bulks m (-1) v) t ([], .wait q h) := by
  have hle := length_le_bulkBytes a
  have hsplit : bulkBytes a = (head (ch '$') a.length ++ [LF]) ++ (a ++ [CR, LF]) := by
    simpa using bulkBytes_eq a []
  rw [hsplit] at ht hne
  rcases prefix_append_cases ht with ⟨h1, h2⟩ | ⟨t', rfl, h1⟩
  · -- the header is not complete
    have hno := idxOf?_part dollar_ne_LF h1 h2
    refine ⟨.bulks m (-1) v, t, by simp, Reads.wait (by simp) ?_ fun l => ?_⟩
    · intro _; rw [NilOk, hno]; trivial
    · show bulkMove string2l m (-1) v t = _
      rw [bulkMove, if_pos rfl, hno]
  · -- the payload is not complete
    have hlt : t'.length < a.length + 2 := by
      have := h1.length_le
      rcases Nat.lt_or_ge t'.length (a.length + 2) with h | h
      · exact h
      · exact absurd (by rw [h1.eq_of_length (by simp at this ⊢; omega)]) hne
    rw [List.append_assoc, List.singleton_append]
    refine ⟨.bulks m a.length v, t', by simp,
      Reads.wait (by simp) (moveOk_bulk hs ha m v t') fun l => ?_⟩
    rw [step_bulk hs ha]
    split_ifs with h0
    · rw [h0]
    · rw [payloadMove, if_neg (by unfold LONG_MAX; omega), if_pos (by omega)]

end Bulk

/-! ### Commands -/

section Command
variable {string2l : Bytes → ℕ → Option ℤ} (hs : String2lSpec string2l) {total : ℕ} {l : ℤ}
include hs

theorem reads_args {t : Bytes} {x : List Argv × End} (h : Reads string2l total l .fresh t x) :
    ∀ (args v : Argv), args ≠ [] → (args.flatMap bulkBytes).length < 2 ^ 31 →
      Reads string2l total l (.bulks args.length (-1) v) (args.flatMap bulkBytes ++ t)
        (Scan.deliver (v ++ args) x)
  | [], _, hne, _ => absurd rfl hne
  | [a], v, _, hlen => by
    have ha : (bulkBytes a).length < 2 ^ 31 := by simpa using hlen
    rw [List.flatMap_singleton]
    refine Reads.emit (by simp) ?_ (fun l => ?_) h
    · rw [bulkBytes_eq]; exact moveOk_bulk hs ha _ v _
    · rw [step_bulk_full hs ha (by simp), if_pos (by simp)]
  | a :: b :: args, v, _, hlen => by
    rw [List.flatMap_cons] at hlen ⊢
    rw [List.length_append] at hlen
    have ha : (bulkBytes a).length < 2 ^ 31 := by omega
    have ih := reads_args h (b :: args) (v ++ [a]) (by simp) (by omega)
    rw [List.append_assoc v, List.singleton_append] at ih
    rw [List.append_assoc]
    refine Reads.next (by simp) ?_ (fun l => ?_) ih
    · rw [bulkBytes_eq]; exact moveOk_bulk hs ha _ v _
    · have hcast : ((a :: b :: args).length : ℤ) - 1 = (b :: args).length := by simp
      have hpos : 0 < ((a :: b :: args).length : ℤ) := by simp; omega
      rw [step_bulk_full hs ha hpos, if_neg (by simp; omega), hcast]

theorem reads_args_part : ∀ (args v : Argv) {t : Bytes}, t <+: args.flatMap bulkBytes →
    t ≠ args.flatMap bulkBytes → (args.flatMap bulkBytes).length < 2 ^ 31 → ∃ q h, q ≠ .fresh ∧
      Reads string2l total l (.bulks args.length (-1) v) t ([], .wait q h) := by
  intro args
  induction args with
  | nil =>
    intro _ t ht hne _
    exact absurd (List.prefix_nil.mp ht) hne
  | cons a args ih =>
    intro v t ht hne hlen
    rw [List.flatMap_cons] at ht hne hlen
    rw [List.length_append] at hlen
    have ha : (bulkBytes a).length < 2 ^ 31 := by omega
    rcases prefix_append_cases ht with ⟨h1, h2⟩ | ⟨t', rfl, h1⟩
    · exact reads_bulk_part hs ha h1 h2
    have hne' : t' ≠ args.flatMap bulkBytes := fun h => hne (by rw [h])
    have hargs : args ≠ [] := by
      rintro rfl
      exact hne' (List.prefix_nil.mp h1)
    obtain ⟨q, h, hq, hr⟩ := ih (v ++ [a]) h1 hne' (by omega)
    have hpos := List.length_pos_iff.mpr hargs
    refine ⟨q, h, hq, Reads.next (by simp) ?_ (fun l => ?_) hr⟩
    · rw [bulkBytes_eq]; exact moveOk_bulk hs ha _ v _
    · have hcast : ((a :: args).length : ℤ) - 1 = args.length := by simp
      rw [step_bulk_full hs ha (by simp), if_neg (by simp; omega), hcast]

omit hs in
theorem commandBytes_eq (c : Argv) (t : Bytes) :
    commandBytes c ++ t = head (ch '*') c.length ++ LF :: (c.flatMap bulkBytes ++ t) := by
  simp [commandBytes, head]

omit hs in
theorem settle_head (n : ℕ) (t : Bytes) :
    settle .fresh (head (ch '*') n ++ LF :: t) = .header := by
  simp [settle, head, peek]

section One
variable {c : Argv} (hc : c ≠ []) (hlen : (commandBytes c).length < 2 ^ 31)
include hc hlen

/-- A command whose header is complete. -/
theorem step_command (t : Bytes) (l : ℤ) :
    step string2l l .fresh (head (ch '*') c.length ++ LF :: t) =
      if t = [] then .wait (.bulks c.length (-1) []) [] else .next (.bulks c.length (-1) []) t := by
  have h1 := length_lt_commandBytes c
  have h2 := length_commandBytes c
  have hpos := List.length_pos_iff.mpr hc
  have hset : settle .fresh (head (ch '*') c.length ++ LF :: t) = .header := settle_head _ _
  rw [step, hset]
  dsimp only
  rw [headerMove, idxOf?_head star_ne_LF]
  simp only [num_head hs (by omega : c.length < 2 ^ 31) (by omega), drop_head]
  rw [if_neg (by simp [head])]
  by_cases ht : t = []
  · rw [if_pos ht, if_pos ht, if_neg (by omega)]
  · rw [if_neg ht, if_neg ht, if_neg (by omega)]

theorem moveOk_command (t : Bytes) :
    MoveOk string2l total .fresh (head (ch '*') c.length ++ LF :: t) := by
  have h1 := length_lt_commandBytes c
  have h2 := length_commandBytes c
  have hpos := List.length_pos_iff.mpr hc
  have hset : settle .fresh (head (ch '*') c.length ++ LF :: t) = .header := settle_head _ _
  rw [MoveOk, hset]
  dsimp only
  rw [EmptyOk, idxOf?_head star_ne_LF]
  intro hn
  rw [num_head hs (by omega) (by omega), Option.some.injEq] at hn
  omega

/-- **A complete command is delivered.** -/
theorem reads_command {t : Bytes} {x : List Argv × End} (h : Reads string2l total l .fresh t x) :
    Reads string2l total l .fresh (commandBytes c ++ t) (Scan.deliver c x) := by
  have h2 := length_commandBytes c
  have hne : c.flatMap bulkBytes ++ t ≠ [] := by
    have := length_le_flatMap c
    have hpos := List.length_pos_iff.mpr hc
    intro h0
    have := congrArg List.length h0
    simp only [List.length_append, List.length_nil] at this
    omega
  rw [commandBytes_eq]
  refine Reads.next (by simp) (moveOk_command hs hc hlen _) (fun l => ?_)
    (reads_args hs h c [] hc (by omega))
  rw [step_command hs hc hlen, if_neg hne]

/-- **A proper part of a command is waited for.** -/
theorem reads_part {t : Bytes} (ht : t <+: commandBytes c) (hne : t ≠ commandBytes c)
    (h0 : t ≠ []) : ∃ q h, q ≠ .fresh ∧ Reads string2l total l .fresh t ([], .wait q h) := by
  have h2 := length_commandBytes c
  have hsplit : commandBytes c = (head (ch '*') c.length ++ [LF]) ++ c.flatMap bulkBytes := by
    simpa using commandBytes_eq c []
  rw [hsplit] at ht hne
  rcases prefix_append_cases ht with ⟨h1, h2⟩ | ⟨t', rfl, h1⟩
  · -- the header is not complete
    have hno := idxOf?_part star_ne_LF h1 h2
    have hset : settle .fresh t = .header := by
      obtain ⟨b, t', rfl⟩ := List.exists_cons_of_ne_nil h0
      have hb : b = ch '*' := by
        rw [head, List.cons_append] at h1
        exact (List.cons_prefix_cons.mp h1).1
      exact if_pos hb
    refine ⟨.header, t, by simp, Reads.wait (by simp [h0]) ?_ fun l => ?_⟩
    · rw [MoveOk, hset]
      show EmptyOk string2l t
      rw [EmptyOk, hno]; trivial
    · rw [step, hset]
      show headerMove string2l t = _
      rw [headerMove, hno]
  have hne' : t' ≠ c.flatMap bulkBytes := fun h => hne (by rw [h])
  rw [List.append_assoc, List.singleton_append]
  by_cases hnil : t' = []
  · refine ⟨.bulks c.length (-1) [], [], by simp,
      Reads.wait (by simp) (moveOk_command hs hc hlen _) fun l => ?_⟩
    rw [step_command hs hc hlen, if_pos hnil]
  · obtain ⟨q, h, hq, hr⟩ := reads_args_part hs c [] h1 hne' (by omega)
    refine ⟨q, h, hq, Reads.next (by simp) (moveOk_command hs hc hlen _) (fun l => ?_) hr⟩
    rw [step_command hs hc hlen, if_neg hnil]

end One

/-! ### Streams -/

omit hs in
/-- The bytes `t` end where a command of the stream ends. -/
def Boundary (cmds : List Argv) (t : Bytes) : Prop :=
  ∃ k, t = (cmds.take k).flatMap commandBytes

omit hs in
theorem commandBytes_ne_nil (c : Argv) : commandBytes c ≠ [] := by simp [commandBytes]

omit hs in
theorem boundary_cons {c : Argv} {cmds : List Argv} {t : Bytes} :
    Boundary (c :: cmds) (commandBytes c ++ t) ↔ Boundary cmds t := by
  constructor
  · rintro ⟨k | k, h⟩
    · simp [commandBytes_ne_nil] at h
    · exact ⟨k, by simpa using h⟩
  · rintro ⟨k, rfl⟩
    exact ⟨k + 1, by simp⟩

omit hs in
theorem not_boundary_part {c : Argv} {cmds : List Argv} {t : Bytes} (ht : t <+: commandBytes c)
    (hne : t ≠ commandBytes c) (h0 : t ≠ []) : ¬ Boundary (c :: cmds) t := by
  rintro ⟨k | k, h⟩
  · exact h0 (by simpa using h)
  · have hle := ht.length_le
    rw [List.take_succ_cons, List.flatMap_cons] at h
    exact hne (ht.eq_of_length_le (by rw [h]; simp))

variable (total l) in
theorem reads_stream : ∀ (cmds : List Argv), (∀ c ∈ cmds, c ≠ []) →
    (cmds.flatMap commandBytes).length < 2 ^ 31 →
    Reads string2l total l .fresh (cmds.flatMap commandBytes) (cmds, .wait .fresh []) := by
  intro cmds
  induction cmds with
  | nil =>
    intro _ _
    exact Reads.nil
  | cons c cmds ih =>
    intro hc hlen
    rw [List.flatMap_cons] at hlen ⊢
    rw [List.length_append] at hlen
    have hr := ih (fun d hd => hc d (List.mem_cons_of_mem _ hd)) (by omega)
    have := reads_command hs (hc c (by simp)) (by omega) hr
    rwa [Scan.deliver, if_neg (hc c (by simp))] at this

variable (total l) in
/-- **Every prefix of a stream of commands is read without an error**, and the parser is between
two requests exactly at the end of a command. -/
theorem reads_prefix : ∀ (cmds : List Argv), (∀ c ∈ cmds, c ≠ []) →
    (cmds.flatMap commandBytes).length < 2 ^ 31 → ∀ {t : Bytes}, t <+: cmds.flatMap commandBytes →
    ∃ em q h, Reads string2l total l .fresh t (em, .wait q h) ∧ (q = .fresh ↔ Boundary cmds t) := by
  intro cmds
  induction cmds with
  | nil =>
    intro _ _ t ht
    rw [List.prefix_nil.mp ht]
    exact ⟨[], .fresh, [], Reads.nil, by simp [Boundary]⟩
  | cons c cmds ih =>
    intro hc hlen t ht
    rw [List.flatMap_cons] at hlen ht
    rw [List.length_append] at hlen
    by_cases h0 : t = []
    · subst h0
      exact ⟨[], .fresh, [], Reads.nil, by simp only [true_iff]; exact ⟨0, rfl⟩⟩
    rcases prefix_append_cases ht with ⟨h1, h2⟩ | ⟨t', rfl, h1⟩
    · obtain ⟨q, h, hq, hr⟩ := reads_part hs (hc c (by simp)) (by omega) h1 h2 h0
      exact ⟨[], q, h, hr, by simp [hq, not_boundary_part h1 h2 h0]⟩
    · obtain ⟨em, q, h, hr, hq⟩ := ih
        (fun d hd => hc d (List.mem_cons_of_mem _ hd)) (by omega) h1
      have := reads_command hs (hc c (by simp)) (by omega) hr
      rw [Scan.deliver, if_neg (hc c (by simp))] at this
      exact ⟨c :: em, q, h, this, by rw [hq, boundary_cons]⟩

end Command

/-! ### The parser on a stream of commands -/

/-- The parser after some chunks of a stream of commands. -/
theorem fed_prefix {string2l : Bytes → ℕ → Option ℤ} (hs : String2lSpec string2l)
    {cmds : List Argv} (hc : ∀ c ∈ cmds, c ≠ [])
    (hlen : (cmds.flatMap commandBytes).length < 2 ^ 31)
    {cs : List Bytes} {t : Bytes} (hd : Division cs t) (hne : t ≠ [])
    (ht : t <+: cmds.flatMap commandBytes) :
    (fed string2l cs).fault = none ∧ (Boundary cmds t → (fed string2l cs).statusCode = .done) ∧
      (¬ Boundary cmds t → (fed string2l cs).statusCode = .half) := by
  have hlt : t.length < 2 ^ 31 := lt_of_le_of_lt ht.length_le hlen
  obtain ⟨em, q, h, hr, hq⟩ := reads_prefix hs t.length t.length cmds hc hlen ht
  have hseen := seen_division hs hne hlt hr.steady hd
  rw [call, hr.scan] at hseen
  obtain ⟨-, h2, h3⟩ := fed_ends string2l hd hlt
  rcases hx : (feedAll (feedCall string2l) (.fresh, []) cs).2 with ⟨q', h'⟩ | e
  · rw [hx] at h2
    have hret := (h3 q' h' hx).resolve_left (hd.ne_nil hne)
    have hqq : q' = .fresh ↔ q = .fresh := by
      simpa [seen, result, outcome, between, hx] using congrArg Prod.snd hseen
    refine ⟨h2.1.fault, fun hb => ?_, fun hb => ?_⟩
    · rw [hret.1, if_pos (hqq.mpr (hq.mpr hb))]
    · rw [hret.1, if_neg (fun h => hb (hq.mp (hqq.mp h)))]
  · simp [seen, result, outcome, hx] at hseen

/-- **Decoding undoes encoding.** The commands are formatted without an exception; whatever the
chunks in which the stream arrives, every command is passed to `DealMessage` once and in order, the
batches passed to `Complete` hold the same commands with their names in lower case, and a call
returns `kRedisParserDone` where a command ends and `kRedisParserHalf` elsewhere. -/
theorem decode_format {string2l : Bytes → ℕ → Option ℤ} (hs : String2lSpec string2l)
    (cmds : List Argv) (hne : cmds ≠ []) (hc : ∀ c ∈ cmds, c ≠ [])
    (hlen : (cmds.flatMap commandBytes).length < 2 ^ 31) :
    ∃ s, formatAll cmds = some s ∧ ∀ cs : List Bytes, Division cs s →
      dealt (fed string2l cs).log = cmds ∧
      (batches (fed string2l cs).log).flatten = cmds.map lowerName ∧
      ∀ k, 0 < k → k ≤ cs.length →
        (fed string2l (cs.take k)).fault = none ∧
        (Boundary cmds (cs.take k).flatten → (fed string2l (cs.take k)).statusCode = .done) ∧
        (¬ Boundary cmds (cs.take k).flatten → (fed string2l (cs.take k)).statusCode = .half) := by
  refine ⟨_, formatAll_eq hlen, fun cs hd => ?_⟩
  have hsne : cmds.flatMap commandBytes ≠ [] := by
    obtain ⟨c, cmds, rfl⟩ := List.exists_cons_of_ne_nil hne
    simp [commandBytes_ne_nil]
  have hr := reads_stream hs (cmds.flatMap commandBytes).length
    (cmds.flatMap commandBytes).length cmds hc hlen
  have hseen := seen_division hs hsne hlen hr.steady hd
  rw [call, hr.scan] at hseen
  obtain ⟨h1, h2, h3⟩ := fed_ends string2l hd hlen
  have hdealt : dealt (fed string2l cs).log = cmds := by
    rw [h1]; simpa [seen, result] using congrArg Prod.fst hseen
  refine ⟨hdealt, ?_, fun k hk hle => ?_⟩
  · rcases hx : (feedAll (feedCall string2l) (.fresh, []) cs).2 with ⟨q', h'⟩ | e
    · rw [hx] at h2
      have hret := (h3 q' h' hx).resolve_left (hd.ne_nil hsne)
      have hq : q' = .fresh := by
        simpa [seen, result, outcome, between, hx] using congrArg Prod.snd hseen
      have hbal := h2.2
      unfold Feed.Balanced at hbal
      rwa [hret.2 hq, List.map_nil, List.append_nil, hdealt] at hbal
    · simp [seen, result, outcome, hx] at hseen
  · have hpre : (cs.take k).flatten <+: cmds.flatMap commandBytes := by
      rw [← hd.flatten]
      conv_rhs => rw [← List.take_append_drop k cs]
      rw [List.flatten_append]
      exact List.prefix_append _ _
    have htake : (cs.take k).flatten ≠ [] := by
      obtain ⟨c, cs, rfl⟩ := List.exists_cons_of_ne_nil (hd.ne_nil hsne)
      obtain ⟨k, rfl⟩ : ∃ j, k = j + 1 := ⟨k - 1, by omega⟩
      have := hd.nonempty c (by simp)
      simp [this]
    exact fed_prefix hs hc hlen (hd.take k) htake hpre

/-- Two commands, one of them with an empty argument. -/
def pair : List Argv := [[bytes "PING"], [bytes "SET", bytes "key", []]]

theorem decode_format_pair :
    ∃ s, formatAll pair = some s ∧ ∀ cs : List Bytes, Division cs s →
      dealt (fed string2l cs).log = pair ∧
      (batches (fed string2l cs).log).flatten = pair.map lowerName ∧
      ∀ k, 0 < k → k ≤ cs.length →
        (fed string2l (cs.take k)).fault = none ∧
        (Boundary pair (cs.take k).flatten → (fed string2l (cs.take k)).statusCode = .done) ∧
        (¬ Boundary pair (cs.take k).flatten → (fed string2l (cs.take k)).statusCode = .half) :=
  decode_format string2l_spec pair (by decide) (by decide) (by decide +kernel)

end Pink.Redis.RoundTrip
