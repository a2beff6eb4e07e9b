import Pink.Redis.RoundTrip

/-! # A stream of commands in pieces

A stream of commands that arrives in pieces. `Awaits cmds q t` says that the parser, with the
progress `q`, is to read the rest of a command and then the commands `cmds`, and that these bytes
are `t`. The scan of a piece ends waiting for the rest of the stream (`scan_awaits`): between two
commands if the piece ends where a command ends, and inside a command otherwise. -/

namespace Pink.Redis.Pieces

open Pink.Redis.Wire Pink.Redis.Split2args Pink.Redis.Parser Pink.Redis.Scan Pink.Redis.Fragment
open Pink.Redis.Format Pink.Redis.RoundTrip

/-- The bytes of a list of commands. -/
abbrev stream (cmds : List Argv) : Bytes := cmds.flatMap commandBytes

/-- A command whose encoding is shorter than `N`. -/
structure Short (N : ℕ) (c : Argv) : Prop where
  ne_nil : c ≠ []
  lt : (commandBytes c).length < N

/-- What comes behind the progress `q`: the rest of a command and the commands `cmds`. -/
def Awaits (N : ℕ) (cmds : List Argv) : Req → Bytes → Prop
  | .fresh, t => t = stream cmds
  | .inline, _ => False
  | .header, t => ∃ c, Short N c ∧ t = commandBytes c ++ stream cmds
  | .bulks mlen blen _, t => ∃ (a : Bytes) (args : Argv), mlen = args.length + 1 ∧
      ((a :: args).flatMap bulkBytes).length < N ∧
      (blen = -1 ∧ t = bulkBytes a ++ (args.flatMap bulkBytes ++ stream cmds) ∨
        blen = a.length ∧ t = a ++ CR :: LF :: (args.flatMap bulkBytes ++ stream cmds))

/-! ### Parts -/

theorem part_cases {α : Type*} {d u x t : List α} (h : d ++ u = x ++ t) :
    (d <+: x ∧ d ≠ x ∧ t.length < u.length) ∨ ∃ d', d = x ++ d' ∧ d' ++ u = t := by
  rcases List.append_eq_append_iff.mp h with ⟨a, rfl, rfl⟩ | ⟨d', hd, ht⟩
  · cases a with
    | nil => exact .inr ⟨[], by simp, rfl⟩
    | cons b a =>
      refine .inl ⟨List.prefix_append d _, fun he => ?_, by simp⟩
      simpa using congrArg List.length he
  · exact .inr ⟨d', hd, ht.symm⟩

/-- A part of what starts with a header line. -/
theorem head_cases {c : UInt8} (hc : c ≠ LF) {n : ℕ} {d u t : Bytes}
    (h : d ++ u = head c n ++ LF :: t) :
    (d.idxOf? LF = none ∧ t.length < u.length) ∨ ∃ d', d = head c n ++ LF :: d' ∧ d' ++ u = t := by
  have hsplit : d ++ u = (head c n ++ [LF]) ++ t := by simpa using h
  rcases part_cases hsplit with ⟨h1, h2, h3⟩ | ⟨d', hd, hu⟩
  · exact .inl ⟨idxOf?_part hc h1 h2, h3⟩
  · exact .inr ⟨d', by simpa using hd, hu⟩

/-- A part of what starts with a payload. -/
theorem payload_cases {a d u t : Bytes} (h : d ++ u = a ++ CR :: LF :: t) :
    (d.length < a.length + 2 ∧ t.length < u.length) ∨
      ∃ d', d = a ++ CR :: LF :: d' ∧ d' ++ u = t := by
  have hsplit : d ++ u = (a ++ [CR, LF]) ++ t := by simpa using h
  rcases part_cases hsplit with ⟨h1, h2, h3⟩ | ⟨d', hd, hu⟩
  · refine .inl ⟨?_, h3⟩
    by_contra hge
    exact h2 (h1.eq_of_length_le (by simp; omega))
  · exact .inr ⟨d', by simpa using hd, hu⟩

/-! ### Moves -/

/-- How a move on a piece in front of `u` ends inside a command. -/
inductive Moves (N : ℕ) (cmds : List Argv) (u : Bytes) : Move → Prop
  | wait {q : Req} {h : Bytes} (hq : q ≠ .fresh) (ha : Awaits N cmds q (h ++ u))
      (hlt : (stream cmds).length < u.length) : Moves N cmds u (.wait q h)
  | next {q : Req} {d : Bytes} (hq : q ≠ .fresh) (ha : Awaits N cmds q (d ++ u)) :
      Moves N cmds u (.next q d)
  | emit {argv : Argv} {d : Bytes} (ha : d ++ u = stream cmds) : Moves N cmds u (.emit argv d)

variable {string2l : Bytes → ℕ → Option ℤ} (hs : String2lSpec string2l) {N : ℕ} (hN : N ≤ 2 ^ 31)
  {cmds : List Argv} {d u : Bytes}

include hN in
theorem payloadMove_moves {a : Bytes} {args v : Argv} {m : ℤ} (hm : m = args.length + 1)
    (hlt : ((a :: args).flatMap bulkBytes).length < N)
    (h : d ++ u = a ++ CR :: LF :: (args.flatMap bulkBytes ++ stream cmds)) :
    Moves N cmds u (payloadMove m a.length v d) := by
  have hle := length_le_bulkBytes a
  have hbulk := hlt
  rw [List.flatMap_cons, List.length_append] at hlt
  have hmin : m ≠ LONG_MIN := by unfold LONG_MIN; omega
  rw [payloadMove, if_neg (by unfold LONG_MAX; omega)]
  rcases payload_cases h with ⟨hd, hu⟩ | ⟨d', rfl, hu⟩
  · rw [if_pos (by omega)]
    refine .wait (by simp) ⟨a, args, hm, hbulk, .inr ⟨rfl, h⟩⟩ ?_
    rw [List.length_append] at hu
    omega
  have htake : (a ++ CR :: LF :: d').take (a.length : ℤ).toNat = a := by simp
  have hdrop : (a ++ CR :: LF :: d').drop ((a.length : ℤ) + 2).toNat = d' := by
    have : ((a.length : ℤ) + 2).toNat = a.length + 2 := by omega
    simp [this, List.drop_append]
  rw [if_neg (by simp), if_neg (by omega), if_neg hmin, htake, hdrop]
  cases args with
  | nil =>
    rw [if_pos (by simp [hm])]
    exact .emit (by simpa using hu)
  | cons b args =>
    rw [if_neg (by simp [hm]; omega)]
    refine .next (by simp) ⟨b, args, by simp [hm], by omega, .inl ⟨rfl, ?_⟩⟩
    simpa [List.append_assoc] using hu

include hs hN in
theorem bulkMove_moves {a : Bytes} {args v : Argv} {m : ℤ} (hm : m = args.length + 1)
    (hlt : ((a :: args).flatMap bulkBytes).length < N)
    (h : d ++ u = bulkBytes a ++ (args.flatMap bulkBytes ++ stream cmds)) :
    Moves N cmds u (bulkMove string2l m (-1) v d) := by
  have hbulk := hlt
  rw [List.flatMap_cons, List.length_append] at hlt
  have ha : (bulkBytes a).length < 2 ^ 31 := by omega
  have hline := h
  rw [bulkBytes_eq] at hline
  rcases head_cases dollar_ne_LF hline with ⟨hno, hu⟩ | ⟨d', rfl, hu⟩
  · rw [bulkMove, if_pos rfl, hno]
    refine .wait (by simp) ⟨a, args, hm, hbulk, .inl ⟨rfl, h⟩⟩ ?_
    simp only [List.length_append, List.length_cons] at hu
    omega
  have hstep := step_bulk hs ha m v d' 0
  change bulkMove string2l m (-1) v _ = _ at hstep
  rw [hstep]
  split_ifs with hnil
  · subst hnil
    refine .wait (by simp) ⟨a, args, hm, hbulk, .inr ⟨rfl, hu⟩⟩ ?_
    rw [List.nil_append] at hu
    rw [hu]
    simp only [List.length_append, List.length_cons]
    omega
  · exact payloadMove_moves hN hm hbulk hu

include hs hN in
theorem headerMove_moves {c : Argv} (hc : Short N c) (h : d ++ u = commandBytes c ++ stream cmds) :
    Moves N cmds u (headerMove string2l d) := by
  have hlen := hc.lt
  have h2 := length_commandBytes c
  have hline := h
  rw [commandBytes_eq] at hline
  obtain ⟨a, args, rfl⟩ := List.exists_cons_of_ne_nil hc.ne_nil
  rcases head_cases star_ne_LF hline with ⟨hno, hu⟩ | ⟨d', rfl, hu⟩
  · rw [headerMove, hno]
    refine .wait (by simp) ⟨_, hc, h⟩ ?_
    rw [List.length_append] at hu
    omega
  have hstep := step_command hs hc.ne_nil (by omega) d' 0
  rw [step, settle_head] at hstep
  change headerMove string2l _ = _ at hstep
  have hbulks : ∀ b : Bytes, b ++ u = (a :: args).flatMap bulkBytes ++ stream cmds →
      Awaits N cmds (.bulks (a :: args).length (-1) []) (b ++ u) := fun b hb =>
    ⟨a, args, by simp, by omega, .inl ⟨rfl, by simpa [List.append_assoc] using hb⟩⟩
  rw [hstep]
  split_ifs with hnil
  · refine .wait (by simp) (hbulks [] (by rw [← hu, hnil])) ?_
    have hpos := length_le_bulkBytes a
    rw [hnil, List.nil_append] at hu
    rw [hu, List.length_append, List.flatMap_cons, List.length_append]
    omega
  · exact .next (by simp) (hbulks d' hu)

include hs hN in
/-- **A move inside a command.** -/
theorem step_moves {q : Req} (h : Awaits N cmds q (d ++ u)) (hq : q ≠ .fresh) (l : ℤ) :
    Moves N cmds u (step string2l l q d) := by
  cases q with
  | fresh => exact absurd rfl hq
  | inline => exact h.elim
  | header =>
    obtain ⟨c, hc, h⟩ := h
    exact headerMove_moves hs hN hc h
  | bulks m b v =>
    obtain ⟨a, args, hm, hlt, ⟨rfl, h⟩ | ⟨rfl, h⟩⟩ := h
    · exact bulkMove_moves hs hN hm hlt h
    · show Moves N cmds u (bulkMove string2l m a.length v d)
      rw [bulkMove, if_neg (by omega)]
      exact payloadMove_moves hN hm hlt h

/-! ### Scans -/

/-- The commands behind the current one are the last ones of the stream, and the current one has
been begun. -/
def Begun (all : List Argv) (q : Req) (cmds : List Argv) (u : Bytes) : Prop :=
  match q with
  | .fresh => cmds <:+ all
  | _ => ∃ c, (c :: cmds) <:+ all ∧ u.length < (stream (c :: cmds)).length

/-- Where a stream stands of which `u` has not arrived. -/
structure Place (all : List Argv) (q : Req) (cmds : List Argv) (u : Bytes) : Prop where
  begun : Begun all q cmds u
  between : q = .fresh → u = stream cmds
  inside : q ≠ .fresh → (stream cmds).length < u.length

variable {all : List Argv}

theorem begun_of_ne_fresh {q : Req} (hq : q ≠ .fresh) : Begun all q cmds u ↔
    ∃ c, (c :: cmds) <:+ all ∧ u.length < (stream (c :: cmds)).length := by
  cases q with
  | fresh => exact absurd rfl hq
  | inline => rfl
  | header => rfl
  | bulks m b v => rfl

theorem Begun.mono {q : Req} {u' : Bytes} (h : Begun all q cmds u) (hle : u'.length ≤ u.length) :
    Begun all q cmds u' := by
  by_cases hq : q = .fresh
  · subst hq
    exact h
  · rw [begun_of_ne_fresh hq] at h ⊢
    obtain ⟨c, hc, hlt⟩ := h
    exact ⟨c, hc, by omega⟩

theorem Begun.suffix {q : Req} (h : Begun all q cmds u) : cmds <:+ all := by
  by_cases hq : q = .fresh
  · subst hq
    exact h
  · rw [begun_of_ne_fresh hq] at h
    obtain ⟨c, hc, -⟩ := h
    exact (List.suffix_cons c cmds).trans hc

/-- A piece that starts where a command starts. -/
theorem header_of_stream (hall : ∀ c ∈ all, Short N c) (hb : Begun all .fresh cmds u) (hd : d ≠ [])
    (h : d ++ u = stream cmds) : ∃ cmds', Awaits N cmds' .header (d ++ u) ∧
      Begun all .header cmds' u ∧ settle .fresh d = settle .header d := by
  cases cmds with
  | nil =>
    simp [hd] at h
  | cons c cmds =>
    have hsuf : (c :: cmds) <:+ all := hb
    refine ⟨cmds, ⟨c, hall c (hsuf.subset (by simp)), h⟩, ⟨c, hsuf, ?_⟩, ?_⟩
    · have hpos := List.length_pos_iff.mpr hd
      rw [← h, List.length_append]
      omega
    · obtain ⟨b, d, rfl⟩ := List.exists_cons_of_ne_nil hd
      have hb : b = ch '*' := by
        rw [stream, List.flatMap_cons, commandBytes_eq, head] at h
        exact (List.cons.inj h).1
      subst hb
      rfl

include hs hN in
/-- **The scan of a piece** ends waiting for the rest of the stream. -/
theorem scan_awaits (hall : ∀ c ∈ all, Short N c) (l : ℤ) : ∀ (n : ℕ) {q : Req} {d : Bytes}
    {cmds : List Argv}, Awaits N cmds q (d ++ u) → Begun all q cmds u → d.length < n →
    ∃ q' h cmds', (scan string2l l n q d).2 = .wait q' h ∧ Awaits N cmds' q' (h ++ u) ∧
      Place all q' cmds' u := by
  intro n
  induction n with
  | zero => intro _ _ _ _ _ hlt; omega
  | succ n ih =>
    -- inside a command
    have inside : ∀ {q : Req} {d : Bytes} {cmds : List Argv}, Awaits N cmds q (d ++ u) →
        Begun all q cmds u → q ≠ .fresh → d.length < n + 1 →
        ∃ q' h cmds', (scan string2l l (n + 1) q d).2 = .wait q' h ∧ Awaits N cmds' q' (h ++ u) ∧
          Place all q' cmds' u := by
      intro q d cmds h hb hq hlt
      have hb' := (begun_of_ne_fresh hq).mp hb
      have hmoves := step_moves hs hN h hq l
      have hnext := @step_next_shorter string2l l q
      have hemit := @step_emit_shorter string2l l q
      simp only [scan, hq, false_and, if_false]
      generalize hm : step string2l l q d = m at hmoves
      cases hmoves with
      | wait hq' ha hu =>
        exact ⟨_, _, cmds, rfl, ha, (begun_of_ne_fresh hq').mpr hb', fun h => absurd h hq',
          fun _ => hu⟩
      | next hq' ha =>
        have := hnext hm
        exact ih ha ((begun_of_ne_fresh hq').mpr hb') (by omega)
      | emit ha =>
        have := hemit hm
        rw [deliver_snd]
        exact ih (q := .fresh) ha hb.suffix (by omega)
    intro q d cmds h hb hlt
    by_cases hq : q = .fresh
    swap
    · exact inside h hb hq hlt
    subst hq
    by_cases hd : d = []
    · subst hd
      have hu : u = stream cmds := h
      exact ⟨.fresh, [], cmds, by simp [scan], h, hb, fun _ => hu, fun hne => absurd rfl hne⟩
    · obtain ⟨cmds', ha, hb', hset⟩ := header_of_stream hall hb hd h
      rw [scan_settle hd hset]
      exact inside ha hb' (by simp) hlt

/-! ### Ends of commands -/

/-- The first `n` bytes of the stream end where a command ends. -/
def AtEnd (all : List Argv) (n : ℕ) : Prop :=
  ∃ k ≤ all.length, n = (stream (all.take k)).length

instance (all : List Argv) (n : ℕ) : Decidable (AtEnd all n) :=
  decidable_of_iff (∃ k < all.length + 1, n = (stream (all.take k)).length)
    (by simp only [AtEnd, Nat.lt_succ_iff])

theorem length_stream_suffix {xs ys : List Argv} (h : xs <:+ ys) :
    (stream xs).length ≤ (stream ys).length := by
  obtain ⟨zs, rfl⟩ := h
  simp [stream]

/-- The parser is between two commands exactly where a command ends. -/
theorem Place.atEnd_iff {q : Req} (h : Place all q cmds u) {n : ℕ}
    (hn : n + u.length = (stream all).length) : AtEnd all n ↔ q = .fresh := by
  have hsum : ∀ k, (stream (all.take k)).length + (stream (all.drop k)).length =
      (stream all).length := fun k => by
    rw [← List.length_append, stream, stream, ← List.flatMap_append, List.take_append_drop]
  constructor
  · rintro ⟨k, hk, rfl⟩
    by_contra hq
    have hin := h.inside hq
    obtain ⟨c, ⟨zs, rfl⟩, hlt⟩ := (begun_of_ne_fresh hq).mp h.begun
    have := hsum k
    -- either the current command is still to come, or it is over
    rcases Nat.lt_or_ge zs.length k with hzs | hzs
    · have hdrop : (zs ++ c :: cmds).drop k <:+ cmds := by
        have hk' : k = zs.length + (k - zs.length) := by omega
        rw [hk', List.drop_append, List.drop_eq_nil_of_le (by omega), List.nil_append]
        obtain ⟨j, hj⟩ : ∃ j, zs.length + (k - zs.length) - zs.length = j + 1 :=
          ⟨k - zs.length - 1, by omega⟩
        rw [hj, List.drop_succ_cons]
        exact List.drop_suffix j cmds
      have := length_stream_suffix hdrop
      omega
    · have hdrop : (c :: cmds) <:+ (zs ++ c :: cmds).drop k := by
        rw [List.drop_append_of_le_length hzs]
        exact List.suffix_append _ _
      have := length_stream_suffix hdrop
      omega
  · rintro rfl
    have hsuf : cmds <:+ all := h.begun
    have hu := h.between rfl
    obtain ⟨zs, rfl⟩ := hsuf
    refine ⟨zs.length, by simp, ?_⟩
    have := hsum zs.length
    rw [List.drop_left' rfl] at this
    rw [hu] at hn
    omega

end Pink.Redis.Pieces
